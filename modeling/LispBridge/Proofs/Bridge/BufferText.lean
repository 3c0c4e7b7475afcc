import Mathlib.Data.List.Nodup
import LispBridge.Proofs.Bridge.Rounds
import LispBridge.Proofs.Bridge.TextStore

/-!
# Texts in buffers

What a buffer holds while other buffers come and go. `Uses` are the histories of buffers, `Does` one
step of them; `Does.effect` says all that a step can do to the memory, and `Uses.holds` that a text
stays where it was stored until its buffer is stored to again or given back. Reading finds the text
up to its first NUL, since nothing keeps a NUL out of a buffer (`Buffer.texts_read_back`).
-/

namespace LispBridge.Bridge

variable {σ η : Type} {m : Module σ}

/-! ## Histories of buffers -/

/-- Something done with buffers, and what came of it. -/
inductive Deed
  | alloc (capacity : Nat) (result : Except ModuleError Buffer)
  | ofText (text : String) (result : Except ModuleError Buffer)
  | write (b : Buffer) (text : String) (result : Except ModuleError Unit)
  | read (b : Buffer) (result : Except ModuleError String)
  | free (b : Buffer)

inductive Deed.Stores (b : Buffer) (text : String) : Deed → Prop
  | write : Stores b text (.write b text (.ok ()))
  | ofText : Stores b text (.ofText text (.ok b))

inductive Deed.Touches (b : Buffer) : Deed → Prop
  | stores {d text} : d.Stores b text → Touches b d
  | free : Touches b (.free b)

theorem Deed.not_touches_ofText {b b' : Buffer} {text : String} (h : b' ≠ b) :
    ¬(Deed.ofText text (.ok b')).Touches b := by
  intro htouches
  cases htouches with
  | stores hstores =>
    cases hstores
    exact h rfl

theorem Deed.not_touches_free {b b' : Buffer} (h : b' ≠ b) : ¬(Deed.free b').Touches b := by
  intro htouches
  cases htouches with
  | stores hstores => cases hstores
  | free => exact h rfl

/-- The module would not hand out a block in use. -/
def Unused (m : Module σ) (live : List Buffer) (capacity : Nat) (t : Traced σ) : Prop :=
  ∀ b t', Buffer.alloc m capacity t = (.ok b, t') → b.addr ∉ live.map Buffer.addr

theorem unused_of_alloc {live : List Buffer} {n : Nat} {t t' : Traced σ} {b : Buffer}
    (h : Buffer.alloc m n t = (.ok b, t')) (hb : b.addr ∉ live.map Buffer.addr) :
    Unused m live n t := by
  intro b' t'' h'
  cases h.symm.trans h'
  exact hb

/-- The buffers in use after another one was asked for. -/
def joined (live : List Buffer) : Except ModuleError Buffer → List Buffer
  | .ok b => b :: live
  | .error _ => live

/-- A deed leads from the buffers in use and the module to others. -/
inductive Does (m : Module σ) (live : List Buffer) (t : Traced σ) :
    Deed → List Buffer → Traced σ → Prop
  | alloc {n r t'} : Unused m live n t → Buffer.alloc m n t = (r, t') →
      Does m live t (.alloc n r) (joined live r) t'
  | ofText {text r t'} : Unused m live (text.utf8ByteSize + 1) t →
      Buffer.ofText m text t = (r, t') → Does m live t (.ofText text r) (joined live r) t'
  | write {b text r t'} : b ∈ live → b.write m text t = (r, t') →
      Does m live t (.write b text r) live t'
  | read {b r t'} : b ∈ live → b.read m t = (r, t') → Does m live t (.read b r) live t'
  | free {b} : b ∈ live → Does m live t (.free b) (live.erase b) (b.free m t)

inductive Uses (m : Module σ) : List Buffer → Traced σ → List Deed → List Buffer → Traced σ → Prop
  | nil {live t} : Uses m live t [] live t
  | cons {live t d live₁ t₁ ds live' t'} : Does m live t d live₁ t₁ → Uses m live₁ t₁ ds live' t' →
      Uses m live t (d :: ds) live' t'

theorem Uses.exists_of_append {live live' : List Buffer} {t t' : Traced σ} {ds ds' : List Deed}
    (h : Uses m live t (ds ++ ds') live' t') :
    ∃ live₁ t₁, Uses m live t ds live₁ t₁ ∧ Uses m live₁ t₁ ds' live' t' := by
  induction ds generalizing live t with
  | nil => exact ⟨live, t, .nil, h⟩
  | cons d ds ih =>
    cases h with
    | cons hd h =>
      obtain ⟨live₁, t₁, h₁, h₂⟩ := ih h
      exact ⟨live₁, t₁, .cons hd h₁, h₂⟩

/-! ## What operations on buffers ask of the module -/

namespace Buffer

variable {b : Buffer} {n : Nat} {text : String} {t t' : Traced σ} {e : ModuleError}

theorem alloc_module {r : Except ModuleError Buffer} (h : alloc m n t = (r, t')) :
    m.alloc n t.module = (r.map Buffer.addr, t'.module) := by
  unfold alloc at h
  rcases ht : t.alloc m n with ⟨_ | a, t₁⟩ <;> rw [ht] at h <;> cases h
  all_goals
    have hr := congrArg Prod.fst ht
    have hs := congrArg (·.2.module) ht
    exact Prod.ext hr hs

theorem capacity_of_alloc (h : alloc m n t = (.ok b, t')) : b.capacity = n := by
  unfold alloc at h
  rcases ht : t.alloc m n with ⟨_ | a, t₁⟩ <;> rw [ht] at h <;> cases h
  rfl

theorem refusal?_eq_none_iff :
    b.refusal? text = none ↔ isAscii text = true ∧ text.utf8ByteSize + 1 ≤ b.capacity := by
  unfold refusal?
  cases isAscii text <;> simp

/-- A text is stored just if it is ASCII, fits with its end, and the module takes it. -/
theorem write_ok_iff : (b.write m text t).1 = .ok () ↔
    isAscii text = true ∧ text.utf8ByteSize + 1 ≤ b.capacity ∧
      (m.write b.addr text t.module).1 = .ok () := by
  rw [← and_assoc, ← refusal?_eq_none_iff, write]
  cases b.refusal? text with
  | some e => simp
  | none => simp [Traced.write]

theorem write_eq_ok (h : b.write m text t = (.ok (), t')) :
    text.utf8ByteSize + 1 ≤ b.capacity ∧ m.write b.addr text t.module = (.ok (), t'.module) := by
  obtain ⟨hascii, hfit, hok⟩ := write_ok_iff.mp (congrArg Prod.fst h)
  rw [write, refusal?_eq_none_iff.mpr ⟨hascii, hfit⟩] at h
  exact ⟨hfit, Prod.ext hok (congrArg (·.2.module) h)⟩

/-- A text that is not stored was refused without a call, or by the module. -/
theorem write_eq_error (h : b.write m text t = (.error e, t')) :
    t' = t ∨ m.write b.addr text t.module = (.error e, t'.module) := by
  unfold write at h
  cases hrefusal : b.refusal? text with
  | some _ =>
    rw [hrefusal] at h
    cases h
    exact .inl rfl
  | none =>
    rw [hrefusal] at h
    have hr : (m.write b.addr text t.module).1 = .error e := congrArg Prod.fst h
    exact .inr (Prod.ext hr (congrArg (·.2.module) h))

theorem ofText_ok_iff {t₁ : Traced σ} (ha : alloc m (text.utf8ByteSize + 1) t = (.ok b, t₁)) :
    (ofText m text t).1 = .ok b ↔ isAscii text = true ∧ text.utf8ByteSize + 1 ≤ b.capacity ∧
      (m.write b.addr text t₁.module).1 = .ok () := by
  rw [← write_ok_iff, ofText, ha]
  rcases hw : b.write m text t₁ with ⟨_ | _, t₂⟩ <;> simp [hw]

/-- A failed write leaves what every buffer reads as. -/
theorem read_of_write_error (store : TextStore m) (h : b.write m text t = (.error e, t'))
    (b' : Buffer) : (b'.read m t').1 = (b'.read m t).1 := by
  obtain rfl | herror := write_eq_error h
  · rfl
  · exact (store.write_error herror).2 b'.addr

end Buffer

/-! ## What a deed does to the memory -/

namespace TextStore

variable {store : TextStore m} {live live' : List Buffer} {t t' : Traced σ} {d : Deed}
  {b b' : Buffer} {n : Nat} {text : String} {s s' : σ} {e : ModuleError}

/-- Buffers in use have blocks of their own, as large as they say. -/
structure Keeps (store : TextStore m) (live : List Buffer) (s : σ) : Prop where
  nodup : (live.map Buffer.addr).Nodup
  length_block : ∀ b ∈ live, (store.block s b.addr).length = b.capacity

theorem Keeps.eq_of_addr_eq (h : store.Keeps live s) (hb : b ∈ live) (hb' : b' ∈ live)
    (haddr : b.addr = b'.addr) : b = b' :=
  List.inj_on_of_nodup_map h.nodup hb hb' haddr

/-- Between two states, only the block at an address may have changed. -/
def Frame (store : TextStore m) (a : Addr) (s s' : σ) : Prop :=
  ∀ a', a' ≠ a → store.block s' a' = store.block s a'

theorem Frame.trans {a : Addr} {s'' : σ} (h : store.Frame a s s') (h' : store.Frame a s' s'') :
    store.Frame a s s'' :=
  fun a' ha => (h' a' ha).trans (h a' ha)

theorem buffer_alloc (h : Buffer.alloc m n t = (.ok b, t')) :
    (store.block t'.module b.addr).length = b.capacity ∧
      store.Frame b.addr t.module t'.module := by
  obtain ⟨hlen, hframe⟩ := store.alloc_ok (Buffer.alloc_module h)
  exact ⟨hlen.trans (Buffer.capacity_of_alloc h).symm, hframe⟩

theorem buffer_write (h : b.write m text t = (.ok (), t'))
    (hlen : (store.block t.module b.addr).length = b.capacity) :
    (store.block t'.module b.addr).length = b.capacity ∧ store.Holds t'.module b.addr text ∧
      store.Frame b.addr t.module t'.module := by
  obtain ⟨hfit, hwrite⟩ := Buffer.write_eq_ok h
  obtain ⟨hlen', hholds, hframe⟩ := store.write_ok hwrite (hlen ▸ hfit)
  exact ⟨hlen'.trans hlen, hholds, hframe⟩

theorem buffer_write_error (h : b.write m text t = (.error e, t')) :
    store.block t'.module = store.block t.module := by
  obtain rfl | herror := Buffer.write_eq_error h
  · rfl
  · exact (store.write_error herror).1

/-- What a deed does to the blocks of the buffers in use. -/
inductive Effect (store : TextStore m) (live : List Buffer) (s : σ) :
    Deed → List Buffer → σ → Prop
  | idle {d : Deed} {s' : σ} : (∀ b text, ¬d.Stores b text) →
      (∀ b ∈ live, store.block s' b.addr = store.block s b.addr) → Effect store live s d live s'
  | made {d : Deed} {b : Buffer} {s' : σ} : b.addr ∉ live.map Buffer.addr →
      (store.block s' b.addr).length = b.capacity → store.Frame b.addr s s' →
      (∀ b' text, d.Stores b' text → b' = b ∧ store.Holds s' b.addr text) →
      Effect store live s d (b :: live) s'
  | stored {b : Buffer} {text : String} {s' : σ} : b ∈ live →
      (store.block s' b.addr).length = b.capacity → store.Holds s' b.addr text →
      store.Frame b.addr s s' → Effect store live s (.write b text (.ok ())) live s'
  | freed {b : Buffer} {s' : σ} : b ∈ live → store.Frame b.addr s s' →
      Effect store live s (.free b) (live.erase b) s'

end TextStore

section
variable {store : TextStore m} {live live' : List Buffer} {t t' : Traced σ} {d : Deed}
  {ds : List Deed} {b : Buffer} {text : String}

theorem Does.effect (h : Does m live t d live' t') (hk : store.Keeps live t.module) :
    store.Effect live t.module d live' t'.module := by
  cases h with
  | @alloc n r _ hunused h =>
    cases r with
    | error e =>
      have hblock := store.alloc_error (Buffer.alloc_module h)
      exact .idle (fun _ _ => nofun) fun b _ => congrFun hblock b.addr
    | ok b =>
      obtain ⟨hlen, hframe⟩ := store.buffer_alloc h
      exact .made (hunused b _ h) hlen hframe fun _ _ => nofun
  | @ofText text r _ hunused h =>
    cases r with
    | error e =>
      refine .idle (fun _ _ => nofun) fun b hb => ?_
      obtain halloc | ⟨b₁, t₁, t₂, halloc, hwrite, rfl⟩ := Buffer.ofText_eq_error h
      · exact congrFun (store.alloc_error (Buffer.alloc_module halloc)) b.addr
      -- The block that is had and given back is none of those in use.
      have hne : b.addr ≠ b₁.addr := fun heq =>
        hunused b₁ t₁ halloc (heq ▸ List.mem_map_of_mem hb)
      obtain ⟨-, hframe⟩ := store.buffer_alloc halloc
      calc store.block (b₁.free m t₂).module b.addr
        _ = store.block t₂.module b.addr := store.free hne
        _ = store.block t₁.module b.addr := congrFun (store.buffer_write_error hwrite) b.addr
        _ = store.block t.module b.addr := hframe b.addr hne
    | ok b =>
      obtain ⟨t₁, halloc, hwrite⟩ := Buffer.ofText_eq_ok h
      obtain ⟨hlen, hframe⟩ := store.buffer_alloc halloc
      obtain ⟨hlen', hholds, hframe'⟩ := store.buffer_write hwrite hlen
      refine .made (hunused b t₁ halloc) hlen' (hframe.trans hframe') fun b' text' hstores => ?_
      cases hstores
      exact ⟨rfl, hholds⟩
  | @write b text r _ hb h =>
    cases r with
    | error e =>
      have hblock := store.buffer_write_error h
      exact .idle (fun _ _ => nofun) fun b _ => congrFun hblock b.addr
    | ok =>
      obtain ⟨hlen, hholds, hframe⟩ := store.buffer_write h (hk.length_block b hb)
      exact .stored hb hlen hholds hframe
  | read _ h =>
    cases h
    exact .idle (fun _ _ => nofun) fun _ _ => rfl
  | free hb => exact .freed hb fun a ha => store.free ha

namespace TextStore.Effect

variable {s s' : σ}

/-- A buffer that is stored to holds the text, and is in use. -/
theorem holds (h : store.Effect live s d live' s') (hd : d.Stores b text) :
    b ∈ live' ∧ store.Holds s' b.addr text := by
  cases h with
  | idle hnone => exact absurd hd (hnone b text)
  | made _ _ _ hmade =>
    obtain ⟨rfl, hholds⟩ := hmade b text hd
    exact ⟨List.mem_cons_self, hholds⟩
  | stored hb _ hholds =>
    cases hd
    exact ⟨hb, hholds⟩
  | freed => cases hd

/-- A buffer that is not touched stays in use, and its block as it was. -/
theorem block_eq (h : store.Effect live s d live' s') (hk : store.Keeps live s) (hb : b ∈ live)
    (hd : ¬d.Touches b) : b ∈ live' ∧ store.block s' b.addr = store.block s b.addr := by
  have hne : ∀ b' ∈ live, b' ≠ b → b.addr ≠ b'.addr := fun b' hb' hne heq =>
    hne (hk.eq_of_addr_eq hb' hb heq.symm)
  cases h with
  | idle _ hsame => exact ⟨hb, hsame b hb⟩
  | made hnew _ hframe _ =>
    refine ⟨List.mem_cons_of_mem _ hb, hframe b.addr fun heq => hnew ?_⟩
    exact heq ▸ List.mem_map_of_mem hb
  | @stored b' _ _ hb' _ _ hframe =>
    have hb'ne : b' ≠ b := by
      rintro rfl
      exact hd (.stores .write)
    exact ⟨hb, hframe b.addr (hne b' hb' hb'ne)⟩
  | @freed b' _ hb' hframe =>
    have hb'ne : b' ≠ b := by
      rintro rfl
      exact hd .free
    exact ⟨(List.mem_erase_of_ne hb'ne.symm).mpr hb, hframe b.addr (hne b' hb' hb'ne)⟩

theorem keeps (h : store.Effect live s d live' s') (hk : store.Keeps live s) :
    store.Keeps live' s' := by
  have ⟨hnodup, hlength⟩ := hk
  cases h with
  | idle _ hsame =>
    exact ⟨hnodup, fun b hb => (congrArg List.length (hsame b hb)).trans (hlength b hb)⟩
  | made hnew hlen hframe _ =>
    refine ⟨List.nodup_cons.mpr ⟨hnew, hnodup⟩, List.forall_mem_cons.mpr ⟨hlen, fun b hb => ?_⟩⟩
    rw [hframe b.addr fun heq => hnew (heq ▸ List.mem_map_of_mem hb), hlength b hb]
  | @stored b' _ _ hb' hlen _ hframe =>
    refine ⟨hnodup, fun b hb => ?_⟩
    by_cases heq : b.addr = b'.addr
    · obtain rfl := hk.eq_of_addr_eq hb hb' heq
      exact hlen
    · rw [hframe b.addr heq, hlength b hb]
  | @freed b' _ hb' hframe =>
    refine ⟨hnodup.sublist (List.erase_sublist.map _), fun b hb => ?_⟩
    have hne : b ≠ b' := ((List.Nodup.of_map _ hnodup).mem_erase_iff.mp hb).1
    have hb := List.mem_of_mem_erase hb
    rw [hframe b.addr fun heq => hne (hk.eq_of_addr_eq hb hb' heq), hlength b hb]

end TextStore.Effect

/-! ## What a history leaves in a buffer -/

theorem Uses.keeps (h : Uses m live t ds live' t') (hk : store.Keeps live t.module) :
    store.Keeps live' t'.module := by
  induction h with
  | nil => exact hk
  | cons hd _ ih => exact ih ((hd.effect hk).keeps hk)

theorem Uses.block_eq (h : Uses m live t ds live' t') (hk : store.Keeps live t.module)
    (hb : b ∈ live) (hds : ∀ d ∈ ds, ¬d.Touches b) :
    store.block t'.module b.addr = store.block t.module b.addr := by
  induction h with
  | nil => rfl
  | cons hd _ ih =>
    obtain ⟨hfirst, hrest⟩ := List.forall_mem_cons.mp hds
    have heffect := hd.effect hk
    obtain ⟨hb', hblock⟩ := heffect.block_eq hk hb hfirst
    rw [ih (heffect.keeps hk) hb' hrest, hblock]

/-- A text stays in a buffer until that is touched, whatever is done to others. -/
theorem Uses.holds {before after : List Deed} (h : Uses m live t (before ++ d :: after) live' t')
    (hk : store.Keeps live t.module) (hd : d.Stores b text) (hafter : ∀ e ∈ after, ¬e.Touches b) :
    store.Holds t'.module b.addr text := by
  obtain ⟨live₁, t₁, hbefore, hrest⟩ := h.exists_of_append
  have hk₁ := hbefore.keeps hk
  cases hrest with
  | cons hdoes hrest =>
    have heffect := hdoes.effect hk₁
    obtain ⟨hb, rest, hholds⟩ := heffect.holds hd
    exact ⟨rest, (hrest.block_eq (heffect.keeps hk₁) hb hafter).trans hholds⟩

end

/-! ## The script of a session -/

/-- A session uses its buffers as any history does. -/
theorem Session.acquire_uses {settings : Settings} {call : Call} {t t' : Traced σ}
    {session : Session} (h : Session.acquire m settings call t = (.ok session, t'))
    (hnodup : ([session.library, session.input, session.output, session.answer].map
      Buffer.addr).Nodup) :
    Uses m [] t ([.alloc settings.answerCapacity (.ok session.answer),
        .alloc settings.outputCapacity (.ok session.output)] ++
      .ofText call.script (.ok session.input) :: [.ofText call.library (.ok session.library)])
      [session.library, session.input, session.output, session.answer] t' := by
  obtain ⟨⟩ | ⟨⟩ | ⟨⟩ | ⟨⟩ | ⟨ha, ho, hi, hl⟩ := acquired_of_acquire h
  obtain ⟨hlibrary, hnodup⟩ := List.nodup_cons.mp hnodup
  obtain ⟨hinput, hnodup⟩ := List.nodup_cons.mp hnodup
  obtain ⟨houtput, -⟩ := List.nodup_cons.mp hnodup
  obtain ⟨_, hi', -⟩ := Buffer.ofText_eq_ok hi
  obtain ⟨_, hl', -⟩ := Buffer.ofText_eq_ok hl
  exact .cons (.alloc (unused_of_alloc ha List.not_mem_nil) ha) <|
    .cons (.alloc (unused_of_alloc ho houtput) ho) <|
    .cons (.ofText (unused_of_alloc hi' hinput) hi) <|
    .cons (.ofText (unused_of_alloc hl' hlibrary) hl) .nil

theorem TextStore.keeps_nil (store : TextStore m) (s : σ) : store.Keeps [] s :=
  ⟨List.nodup_nil, nofun⟩

/-- The input block holds the script when the evaluation is entered. -/
theorem Session.holds_script (store : TextStore m) {settings : Settings} {call : Call}
    {t t' : Traced σ} {session : Session}
    (h : Session.acquire m settings call t = (.ok session, t'))
    (hnodup : ([session.library, session.input, session.output, session.answer].map
      Buffer.addr).Nodup) (handled : Bool) :
    store.Holds (m.setCallback handled t'.module) session.input.addr call.script := by
  have hne : session.library ≠ session.input := by
    intro heq
    rw [heq] at hnodup
    exact (List.nodup_cons.mp hnodup).1 List.mem_cons_self
  obtain ⟨rest, hholds⟩ := (acquire_uses h hnodup).holds (store.keeps_nil _) .ofText
    (List.forall_mem_singleton.mpr (Deed.not_touches_ofText hne))
  exact ⟨rest, (congrFun store.setCallback _).trans hholds⟩

/-- The one evaluation that the journal of a session shows is entered with the session's blocks. -/
theorem Proceedings.enter_cases {handler : Option (Handler η)} {call : Call} {l : Live σ η}
    {body : List Event} {broken : Option Break} (h : Proceedings m handler call l body broken)
    {args : EvalArgs} (hmem : .enter args ∈ body) :
    ∃ (session : Session) (t : Traced σ) (stops : List (Stop σ))
      (value : Option (Except ModuleError Int)) (s' : σ),
      Session.acquire m l.settings call l.occupy.toTraced = (.ok session, t) ∧
      args = session.args l.settings call ∧
      (Fresh (.held []) body →
        ([session.library, session.input, session.output, session.answer].map Buffer.addr).Nodup) ∧
      (m.evaluate args (m.setCallback handler.isSome t.module)).Course stops value s' ∧
      .leave value ∈ body := by
  cases h with
  | refused _ hup => exact (hup _ hmem).elim
  | @held session t opening stops talk value reading s' _ hacq hup _ hafter _ hcourse htalk hread =>
    have hargs : args = session.args l.settings call := by
      simp only [List.mem_append, List.mem_cons, reduceCtorEq, false_or, Event.enter.injEq] at hmem
      obtain hmem | rfl | hmem | hmem := hmem
      · exact (hup _ hmem).elim
      · rfl
      · exact (htalk.converses _ hmem).elim
      · have hupkeep := session.closing_upkeep hread (.enter args) (by simpa using hmem)
        exact hupkeep.elim
    refine ⟨session, t, stops, value, s', hacq, hargs, fun hfresh => ?_, hargs ▸ hcourse, by simp⟩
    have hnodup := Fresh.nodup_addrs (along_append.mp hfresh).1 List.nodup_nil
    rwa [hafter] at hnodup

/-- A write succeeds just if the text is ASCII, fits, and the module takes it; one that fails leaves
all there is to read. A text stays in its buffer whatever is done to others, and is read up to its
first NUL: in full just if there is none. That goes for the script of an evaluation, too. -/
theorem Buffer.texts_read_back (m : Module σ) (store : TextStore m) :
    (∀ (b : Buffer) (text : String) (t : Traced σ), (b.write m text t).1 = .ok () ↔
      isAscii text = true ∧ text.utf8ByteSize + 1 ≤ b.capacity ∧
        (m.write b.addr text t.module).1 = .ok ()) ∧
    (∀ (b : Buffer) (text : String) (t t₁ : Traced σ),
      Buffer.alloc m (text.utf8ByteSize + 1) t = (.ok b, t₁) →
      ((Buffer.ofText m text t).1 = .ok b ↔
        isAscii text = true ∧ text.utf8ByteSize + 1 ≤ b.capacity ∧
          (m.write b.addr text t₁.module).1 = .ok ())) ∧
    (∀ (b : Buffer) (text : String) (t : Traced σ) (before : List Deed) (d : Deed)
      (after : List Deed) (live : List Buffer) (t' : Traced σ),
      Uses m [] t (before ++ d :: after) live t' → d.Stores b text →
      (∀ e ∈ after, ¬e.Touches b) →
      (b.read m t').1 = .ok (Text.beforeNul text) ∧
      ((b.read m t').1 = .ok text ↔ '\x00' ∉ text.toList)) ∧
    (∀ (b : Buffer) (text : String) (t : Traced σ) (e : ModuleError) (t' : Traced σ),
      b.write m text t = (.error e, t') →
      ∀ b' : Buffer, (b'.read m t').1 = (b'.read m t).1) ∧
    ∀ (handler : Option (Handler η)) (script : String) (taskLimit : Option Nat) (l : Live σ η),
      l.evaluating = false → ∃ l' body,
      ((Manager.ready l).execute m handler script taskLimit).2 = .ready l' ∧
      l'.journal = l.journal ++ .occupy :: (body ++ [.release]) ∧
      ∀ args, .enter args ∈ body → Fresh (.held []) body →
        ∃ (session : Session) (t : Traced σ) (stops : List (Stop σ))
          (value : Option (Except ModuleError Int)) (s' : σ),
          let call := Call.ofScript l.settings script taskLimit
          let entered := m.setCallback handler.isSome t.module
          Session.acquire m l.settings call l.occupy.toTraced = (.ok session, t) ∧
          args = session.args l.settings call ∧
          (m.evaluate args entered).Course stops value s' ∧ .leave value ∈ body ∧
          m.read args.input entered = .ok (Text.beforeNul script) ∧
          (m.read args.input entered = .ok script ↔ '\x00' ∉ script.toList) := by
  refine ⟨fun b text t => write_ok_iff, fun b text t t₁ => ofText_ok_iff, ?_,
    fun b text t e t' h b' => read_of_write_error store h b', ?_⟩
  · intro b text t before d after live t' huses hstores hafter
    have hholds := huses.holds (store.keeps_nil t.module) hstores hafter
    exact ⟨hholds.read_eq, hholds.read_eq_self_iff⟩
  · intro handler script taskLimit l hidle
    let call := Call.ofScript l.settings script taskLimit
    obtain ⟨-, -, body, hj, hproc⟩ := l.evaluate_proceedings m handler call hidle
    refine ⟨_, body, rfl, hj, fun args hmem hfresh => ?_⟩
    obtain ⟨session, t, stops, value, s', hacq, hargs, hnodup, hcourse, hleave⟩ :=
      hproc.enter_cases hmem
    have hholds := Session.holds_script store hacq (hnodup hfresh) handler.isSome
    rw [show session.input.addr = args.input by rw [hargs]; rfl] at hholds
    exact ⟨session, t, stops, value, s', hacq, hargs, hcourse, hleave, hholds.read_eq,
      hholds.read_eq_self_iff⟩

/-- A text is read back after a failed write and dealings with another buffer, and a script by the
evaluation that it is run by. -/
theorem Buffer.texts_read_back_mixed :
    let m := Sandbox.interpreter
    let b : Buffer := ⟨⟨16⟩, 8⟩
    let b' : Buffer := ⟨⟨40⟩, 2⟩
    let t₀ : Traced Sandbox.Machine := { module := {} }
    let t₁ := (Buffer.alloc m 8 t₀).2
    let t₂ := (b.write m "(+ 1 2)" t₁).2
    let t₃ := (Buffer.ofText m "x" t₂).2
    let t₄ := (b.write m "(+ 1 2 3)" t₃).2
    let t₅ := b'.free m t₄
    Uses m [] t₀ [.alloc 8 (.ok b), .write b "(+ 1 2)" (.ok ()), .ofText "x" (.ok b'),
      .write b "(+ 1 2 3)" (.error (.overflow ⟨16⟩ 9)), .free b'] [b] t₅ ∧
    (b.read m t₅).1 = .ok "(+ 1 2)" ∧
    let l : Live Sandbox.Machine Unit := { module := {}, host := () }
    let call := Call.ofScript l.settings "(+ 1 2)" none
    ∃ session t, Session.acquire m l.settings call l.occupy.toTraced = (.ok session, t) ∧
      m.read session.input.addr (m.setCallback false t.module) = .ok "(+ 1 2)" := by
  intro m b b' t₀ t₁ t₂ t₃ t₄ t₅
  have h₁ : Buffer.alloc m 8 t₀ = (.ok b, t₁) := Prod.ext (by decide) rfl
  have h₂ : b.write m "(+ 1 2)" t₁ = (.ok (), t₂) := Prod.ext (by decide +kernel) rfl
  have h₃ : Buffer.ofText m "x" t₂ = (.ok b', t₃) := Prod.ext (by decide +kernel) rfl
  have h₄ : b.write m "(+ 1 2 3)" t₃ = (.error (.overflow ⟨16⟩ 9), t₄) :=
    Prod.ext (by decide +kernel) rfl
  obtain ⟨t, hb', -⟩ := Buffer.ofText_eq_ok h₃
  have huses : Uses m [] t₀ [.alloc 8 (.ok b), .write b "(+ 1 2)" (.ok ()), .ofText "x" (.ok b'),
      .write b "(+ 1 2 3)" (.error (.overflow ⟨16⟩ 9)), .free b'] [b] t₅ :=
    .cons (.alloc (unused_of_alloc h₁ List.not_mem_nil) h₁) <|
    .cons (.write List.mem_cons_self h₂) <|
    .cons (.ofText (unused_of_alloc hb' (by decide)) h₃) <|
    .cons (.write (by decide) h₄) <| .cons (.free List.mem_cons_self) .nil
  obtain ⟨-, -, hread, -, hexecute⟩ := Buffer.texts_read_back m Sandbox.textStore
  refine ⟨huses, ((hread b "(+ 1 2)" t₀ [.alloc 8 (.ok b)] _ _ _ t₅ huses .write ?_).2).mpr ?_, ?_⟩
  · simp only [List.forall_mem_cons]
    refine ⟨Deed.not_touches_ofText (by decide), ?_, Deed.not_touches_free (by decide), nofun⟩
    rintro ⟨⟨⟩⟩
  · decide
  · intro l call
    obtain ⟨l', body, hl', hj, hentered⟩ := hexecute none "(+ 1 2)" none l rfl
    have hbody : body = l'.journal.tail.dropLast := between_eq hj
    have hjournal : .enter ⟨10000, ⟨10485896⟩, ⟨10485872⟩, ⟨96⟩, 9999⟩ ∈ body ∧
        Fresh (.held []) body := by
      rw [hbody, ← Manager.ready.inj hl']
      decide +kernel
    obtain ⟨session, t, stops, value, s', hacq, hargs, -, -, -, hfull⟩ :=
      hentered _ hjournal.1 hjournal.2
    rw [hargs] at hfull
    exact ⟨session, t, hacq, hfull.mpr (by decide)⟩

/-- A text with a NUL is stored like others, and read back cut off. -/
theorem Buffer.not_texts_read_back : Nonempty (TextStore Sandbox.interpreter) ∧
    ∃ (b : Buffer) (t : Traced Sandbox.Machine),
      Buffer.ofText Sandbox.interpreter "a\x00b" { module := {} } = (.ok b, t) ∧
      (b.read Sandbox.interpreter t).1 = .ok "a" ∧
      ¬(b.read Sandbox.interpreter t).1 = .ok "a\x00b" := by
  have hstored : (Buffer.ofText Sandbox.interpreter "a\x00b" { module := {} }).1 =
      .ok ⟨⟨16⟩, 4⟩ := by decide +kernel
  refine ⟨⟨Sandbox.textStore⟩, _, _, Prod.ext hstored rfl, ?_, ?_⟩ <;> decide +kernel

end LispBridge.Bridge
