import LispBridge.Proofs.Command.CommandLine
import LispBridge.Proofs.Library.Block

/-!
# Declaring entries on a command line

A run of `declare` writes the block of the entries that its words declare, and they are read back
from that block (`declared_read_back`). No word that declares an entry is taken for an option, since
none starts with a dash (`Word.ofText_of_entry`).
-/

namespace LispBridge.Command

open Chars Library

variable {s : String} {e : Entry} {es : List Entry} {ds values : List String}

/-! ## Words that declare entries -/

theorem head?_of_declares {t : List Char} (h : Declares e t) :
    ∃ c, t.head? = some c ∧ (c = '(' ∨ isIdentChar c = true) := by
  have hident {name : List Char} (hname : isIdent name = true) (rest : List Char) :
      ∃ c, (name ++ rest).head? = some c ∧ (c = '(' ∨ isIdentChar c = true) := by
    obtain ⟨hne, hall⟩ := isIdent_iff.mp hname
    rw [List.head?_append, List.head?_eq_some_head hne]
    exact ⟨_, rfl, .inr (hall _ (List.head_mem hne))⟩
  cases h with
  | full h =>
    obtain ⟨rest, rfl⟩ := h.exists_bracket
    exact ⟨'(', rfl, .inl rfl⟩
  | arity hname | short hname =>
    rw [List.append_assoc]
    exact hident hname _

theorem Word.ofText_of_entry (h : Entry.ofText s = .ok e) : Word.ofText s = .plain := by
  refine ofText_eq_plain fun hdash => ?_
  obtain ⟨front, back, hfront, -, heq⟩ := exists_trim s.toList
  obtain ⟨c, hc, hcases⟩ := head?_of_declares (Entry.ofText_eq_ok_iff.mp h)
  rw [heq, List.head?_append, List.head?_append, hc] at hdash
  cases front with
  | nil =>
    cases hdash
    obtain hbracket | hident := hcases
    · cases hbracket
    · cases hident
  | cons d front =>
    cases hdash
    cases hfront '-' List.mem_cons_self

/-! ## Reading the words -/

/-- The words of declarations are kept until there are no more. -/
theorem Reader.words_of_plain (hplain : ∀ s ∈ ds, Word.ofText s = .plain) (options : List Opt) :
    Reader.words false ds
        { options, operands := [.decls], pending := some (.operand .decls values) } =
      Reader.settle
        { options, operands := [.decls], pending := some (.operand .decls (values ++ ds)) } := by
  induction ds generalizing values with
  | nil => rw [List.append_nil]; rfl
  | cons s ds ih =>
    obtain ⟨hs, hplain⟩ := List.forall_mem_cons.mp hplain
    rw [List.append_cons, ← ih hplain, words, hs]
    rfl

theorem plain_of_forall₂ (h : List.Forall₂ (Entry.ofText · = .ok ·) ds es) :
    ∀ s ∈ ds, Word.ofText s = .plain := by
  induction h with
  | nil => nofun
  | cons he _ ih => exact List.forall_mem_cons.mpr ⟨Word.ofText_of_entry he, ih⟩

theorem ofWords_declare (hne : ds ≠ []) (h : List.Forall₂ (Entry.ofText · = .ok ·) ds es) :
    Invocation.ofWords ("declare" :: ds) = .ok ⟨false, .declare es⟩ := by
  let asked : Reader :=
    { options := Subcommand.declare.options, operands := Subcommand.declare.operands }
  have hdecls := readDecls_eq_ok_iff.mpr h
  have hwords : Reader.words false ds asked = .ok { asked with given := { decls := es } } := by
    cases h with
    | nil => exact absurd rfl hne
    | @cons s e ds es hs hrest =>
      have hrest' := plain_of_forall₂ hrest
      have hkept : Reader.words false ds { asked with pending := some (.operand .decls [s]) } = _ :=
        Reader.words_of_plain hrest' asked.options
      rw [Reader.words, Word.ofText_of_entry hs]
      refine hkept.trans ?_
      show Except.map _ (Except.map _ (readDecls (s :: ds))) = _
      rw [hdecls]
      rfl
  show invoke false .declare ds = _
  rw [invoke, hwords]
  cases h with
  | nil => exact absurd rfl hne
  | cons => rfl

/-! ## The output -/

theorem stdout_renderBlock (es : List Entry) :
    (Report.output (renderBlock es)).stdout = renderBlock es := by
  cases es with
  | nil => rfl
  | cons e es =>
    have htail : blockTail = ";\n;;; end-user-library\n" ++ "\n" := by decide
    have hsome : ¬(e :: es).isEmpty = true := Bool.false_ne_true
    rw [renderBlock, if_neg hsome, htail, ← String.append_assoc, Report.stdout_append_feed]

variable {files : Files Id} {places words : List String} {verbose : Bool}

theorem report_of_declare (h : Invocation.ofWords words = .ok ⟨verbose, .declare es⟩) :
    report files places words = .output (renderBlock es) := by
  rw [report, h]
  rfl

theorem parseBlock_report (h : Invocation.ofWords words = .ok ⟨verbose, .declare es⟩) :
    parseBlock (report files places words).stdout = es := by
  rw [report_of_declare h, stdout_renderBlock]
  exact parseBlock_renderBlock (wellFormed_of_ofWords h)

/-- A text is accepted just if it declares the entry between blanks; what it is refused as is the
text between them. Accepted entries are well-formed, and accepted in the full and the short form of
their declaration. What a run of `declare` writes is a block of the entries that its words declare,
and they are read back from it. -/
theorem declared_read_back :
    (∀ (s : String) (e : Entry), Entry.ofText s = .ok e ↔ Declares e (trim s.toList)) ∧
    (∀ (s : String) (err : DeclarationError), Entry.ofText s = .error err ↔
      (∀ e, ¬Declares e (trim s.toList)) ∧ err = ⟨String.ofList (trim s.toList)⟩) ∧
    (∀ (s : String) (e : Entry), Entry.ofText s = .ok e →
      e.WellFormed ∧ Entry.ofText e.declaration = .ok e ∧ Entry.ofText e.short = .ok e) ∧
    ∀ (files : Files Id) (places : List String),
      (∀ (ds : List String) (es : List Entry), List.Forall₂ (Entry.ofText · = .ok ·) ds es →
        (ds ≠ [] → report files places ("declare" :: ds) = .output (renderBlock es)) ∧
        parseBlock (report files places ("declare" :: ds)).stdout = es) ∧
      ∀ (words : List String) (verbose : Bool) (es : List Entry),
        Invocation.ofWords words = .ok ⟨verbose, .declare es⟩ →
        (report files places words).status = 0 ∧
          parseBlock (report files places words).stdout = es := by
  refine ⟨fun s e => Entry.ofText_eq_ok_iff, fun s err => Entry.ofText_eq_error_iff,
    fun s e h => ?_, fun files places => ⟨fun ds es h => ?_, fun words verbose es h => ?_⟩⟩
  · have hwell := Entry.wellFormed_of_ofText h
    exact ⟨hwell, Entry.ofText_declaration hwell, Entry.ofText_short hwell⟩
  · by_cases hne : ds = []
    · -- without words the run is refused, and nothing is written
      subst hne
      cases h
      have hrefused : Invocation.ofWords ["declare"] = .error .missingRequired := by decide +kernel
      refine ⟨fun hne => absurd rfl hne, ?_⟩
      rw [report, hrefused]
      show parseBlock (Report.refused .missingRequired).stdout = []
      decide +kernel
    · have hwords := ofWords_declare hne h
      exact ⟨fun _ => report_of_declare hwords, parseBlock_report hwords⟩
  · refine ⟨?_, parseBlock_report h⟩
    rw [report_of_declare h]
    rfl

/-- All three forms with blanks of several kinds, and a command line with options around them. -/
theorem declared_read_back_mixed :
    let ds := [" f\u2003( a  b\t)", "g\n/ +2", "(defjs\u00a0h( x) )\r"]
    let es : List Entry := [⟨"f", ["a", "b"]⟩, ⟨"g", ["_0", "_1"]⟩, ⟨"h", ["x"]⟩]
    let words := ["-v", "declare", "g/2", "--verbose", "--", " defjs()"]
    let files : Files Id := ⟨fun _ => .error .notFound, fun _ => false⟩
    List.Forall₂ (Entry.ofText · = .ok ·) ds es ∧
      (∀ e ∈ es, Entry.ofText e.declaration = .ok e ∧ Entry.ofText e.short = .ok e) ∧
      report files [] ("declare" :: ds) = .output (renderBlock es) ∧
      parseBlock (report files [] ("declare" :: ds)).stdout = es ∧
      parseBlock (report files [] words).stdout = [⟨"g", ["_0", "_1"]⟩, ⟨"defjs", []⟩] := by
  intro ds es words files
  have hes : List.Forall₂ (Entry.ofText · = .ok ·) ds es :=
    .cons (by decide +kernel) (.cons (by decide +kernel) (.cons (by decide +kernel) .nil))
  have hwords : Invocation.ofWords words =
      .ok ⟨true, .declare [⟨"g", ["_0", "_1"]⟩, ⟨"defjs", []⟩]⟩ := by decide +kernel
  obtain ⟨-, -, haccepted, hruns⟩ := declared_read_back
  obtain ⟨hdeclare, hany⟩ := hruns files []
  obtain ⟨hreport, hparse⟩ := hdeclare ds es hes
  refine ⟨hes, fun e he => ?_, hreport (by decide), hparse, (hany words _ _ hwords).2⟩
  obtain ⟨i, hi, rfl⟩ := List.mem_iff_getElem.mp he
  exact (haccepted _ _ (hes.get (hes.length_eq ▸ hi) hi)).2

end LispBridge.Command
