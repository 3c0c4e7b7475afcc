import LispBridge.Primitive
import LispBridge.Proofs.Library.Block
import Mathlib.Data.List.Nodup

/-!
# Primitives as declarations

However the parameter types of a primitive have come about, its entry declares its name and its
number of parameters, under names that are told apart. The entry is read back from a block, and the
primitive that it declares has it for its entry again: `Primitive.entry_read_back`.
-/

namespace LispBridge.Primitive

open Library

variable {p : Primitive}

/-! ## Edits -/

/-- A change of the parameter types of a primitive. -/
inductive Edit
  /-- All of them are replaced. -/
  | types (ts : List LispType)
  /-- The one at an index is set. -/
  | type (index : Nat) (type : LispType)
  deriving DecidableEq, Repr

def edit (p : Primitive) : Edit → Primitive
  | .types ts => { p with paramTypes := ts }
  | .type index type => p.setParamType index type

def edits (p : Primitive) (es : List Edit) : Primitive :=
  es.foldl edit p

/-- The number of parameters that an edit leaves of a number of them. -/
def Edit.arity (n : Nat) : Edit → Nat
  | .types ts => ts.length
  | .type index _ => max n (index + 1)

/-- The list of types grows just as far as the index. -/
theorem arity_setParamType (p : Primitive) (index : Nat) (type : LispType) :
    (p.setParamType index type).arity = max p.arity (index + 1) := by
  simp only [setParamType, arity, List.length_set, List.length_append, List.length_replicate]
  omega

theorem arity_edit (p : Primitive) (e : Edit) : (p.edit e).arity = e.arity p.arity := by
  cases e with
  | types => rfl
  | type index type => exact p.arity_setParamType index type

theorem name_edit (p : Primitive) (e : Edit) : (p.edit e).name = p.name := by
  cases e <;> rfl

theorem arity_edits (p : Primitive) (es : List Edit) :
    (p.edits es).arity = es.foldl Edit.arity p.arity := by
  induction es generalizing p with
  | nil => rfl
  | cons e es ih => rw [edits, List.foldl_cons, ← edits, ih, arity_edit, List.foldl_cons]

theorem name_edits (p : Primitive) (es : List Edit) : (p.edits es).name = p.name := by
  induction es generalizing p with
  | nil => rfl
  | cons e es ih => rw [edits, List.foldl_cons, ← edits, ih, name_edit]

/-! ## Entries -/

theorem arity_toEntry (p : Primitive) : p.toEntry.arity = p.arity := by
  simp [toEntry, Entry.ofParams, Entry.arity, Params.names]

theorem nodup_params_toEntry (p : Primitive) : p.toEntry.params.Nodup :=
  List.nodup_range.map placeholder_injective

theorem wellFormed_toEntry (h : isIdent p.name.toList = true) : p.toEntry.WellFormed :=
  Entry.wellFormed_ofParams_count h p.arity

/-- The primitive that an entry declares has nothing but its name and its number of parameters. -/
theorem ofEntry_toEntry (p : Primitive) :
    ofEntry p.toEntry = ⟨p.name, List.replicate p.arity .any, none, []⟩ := by
  rw [ofEntry, arity_toEntry]
  rfl

theorem toEntry_ofEntry (p : Primitive) : (ofEntry p.toEntry).toEntry = p.toEntry := by
  rw [ofEntry_toEntry, toEntry, toEntry]
  simp [arity]

/-- The entry of a primitive, after any edits, keeps its name and number of parameters, whose names
are different identifiers; it is read back from its block, and from the primitive that it
declares. -/
theorem entry_read_back (h : isIdent p.name.toList = true) (es : List Edit) :
    let q := p.edits es
    let e := q.toEntry
    (e.name = p.name ∧ e.arity = q.arity ∧ q.arity = es.foldl Edit.arity p.arity ∧
      e.params.Nodup ∧ ∀ param ∈ e.params, isIdent param.toList = true) ∧
    parseBlock (renderBlock [e]) = [e] ∧
    ofEntry e = ⟨p.name, List.replicate q.arity .any, none, []⟩ ∧
    (ofEntry e).toEntry = e := by
  intro q e
  have hname : q.name = p.name := p.name_edits es
  have hwell : e.WellFormed := wellFormed_toEntry (hname ▸ h)
  refine ⟨⟨hname, q.arity_toEntry, p.arity_edits es, q.nodup_params_toEntry, hwell.2⟩, ?_, ?_,
    q.toEntry_ofEntry⟩
  · exact parseBlock_renderBlock (List.forall_mem_singleton.mpr hwell)
  · rw [← hname]
    exact q.ofEntry_toEntry

/-- Two types are replaced by one, and three come of it when the third is set. -/
theorem entry_read_back_grown :
    let q := edits { name := "f" } [.types [.int, .bool], .types [.cell], .type 2 .symbol]
    isIdent "f".toList = true ∧ q.arity = 3 ∧ q.toEntry = ⟨"f", ["_0", "_1", "_2"]⟩ ∧
      parseBlock (renderBlock [q.toEntry]) = [q.toEntry] ∧
      (ofEntry q.toEntry).toEntry = q.toEntry := by
  intro q
  have hname : isIdent "f".toList = true := by decide
  obtain ⟨⟨-, -, harity, -⟩, hread, -, hback⟩ := entry_read_back (p := { name := "f" }) hname
    [.types [.int, .bool], .types [.cell], .type 2 .symbol]
  exact ⟨hname, harity, by decide, hread, hback⟩

end LispBridge.Primitive
