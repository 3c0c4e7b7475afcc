/-!
Finite maps as lists of pairs.

A table is looked at through `get?` only: a pair hides those after it with the same key.
-/

namespace LispBridge

/-- A finite map. -/
structure Table (κ ν : Type) where
  /-- The pairs, of which the first with a key counts. -/
  entries : List (κ × ν) := []
  deriving Repr

namespace Table

variable {κ ν : Type} [DecidableEq κ]

def get? (t : Table κ ν) (k : κ) : Option ν :=
  t.entries.lookup k

def erase (t : Table κ ν) (k : κ) : Table κ ν :=
  ⟨t.entries.filter fun p => !(k == p.1)⟩

/-- The table with a value at a key. -/
def set (t : Table κ ν) (k : κ) (v : ν) : Table κ ν :=
  ⟨(k, v) :: (t.erase k).entries⟩

/-- The number of keys with a value. -/
def size (t : Table κ ν) : Nat :=
  t.entries.length

private theorem lookup_cons_eq (p : κ × ν) (es : List (κ × ν)) (j : κ) :
    (p :: es).lookup j = if j = p.1 then some p.2 else es.lookup j := by
  rw [List.lookup_cons]
  by_cases h : j = p.1
  · simp [h]
  · simp only [beq_eq_false_iff_ne.2 h, if_neg h]

theorem get?_erase (t : Table κ ν) (k j : κ) :
    (t.erase k).get? j = if j = k then none else t.get? j := by
  obtain ⟨es⟩ := t
  simp only [erase, get?]
  induction es with
  | nil => simp
  | cons p es ih =>
    by_cases hk : k = p.1 <;> by_cases hj : j = p.1 <;> by_cases hjk : j = k <;>
      simp_all [lookup_cons_eq]

theorem get?_set (t : Table κ ν) (k j : κ) (v : ν) :
    (t.set k v).get? j = if j = k then some v else t.get? j := by
  have h := get?_erase t k j
  by_cases hjk : j = k <;> simp_all [set, get?, lookup_cons_eq]

end Table

end LispBridge
