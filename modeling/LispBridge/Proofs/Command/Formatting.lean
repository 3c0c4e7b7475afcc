import LispBridge.Proofs.Command.CommandLine
import LispBridge.Proofs.Format.Indentation

/-!
# Formatting what has been formatted

The program ends its output with a line feed, and a layout keeps a line feed at the end. So what a
run of `fmt` writes is a script that a run with the same indentation has nothing to change in
(`fmt_own_output`).
-/

namespace LispBridge.Command

open Chars Format

variable {o : Layout} {n : Nat}

/-! ## The command line -/

/-- The words that ask for a layout of the standard input, with `n` spaces for each level. -/
def fmtWords (n : Nat) : List String := ["fmt", "--indent", toString n]

/-- A numeral is no option. -/
theorem Word.ofText_toString (n : Nat) : Word.ofText (toString n) = .plain := by
  refine ofText_eq_plain fun hdash => ?_
  rw [Nat.toString_eq_repr, Nat.toList_repr] at hdash
  cases isDigit_toDigits n '-' (List.mem_of_mem_head? hdash)

theorem readIndent_toString (n : Nat) :
    readIndent (toString n) = if n < bound64 then .ok n else .error .badValue := by
  rw [readIndent, Nat.toString_eq_repr, Nat.toList_repr, unsigned?_toDigits]
  by_cases hn : n < bound64 <;> simp [hn]

theorem ofWords_fmtWords (n : Nat) : Invocation.ofWords (fmtWords n) =
    if n < bound64 then .ok ⟨false, .fmt none n⟩ else .error .badValue := by
  let asked : Reader := { options := Subcommand.fmt.options, operands := Subcommand.fmt.operands }
  -- the number waits until the words have come to their end
  have hwords : Reader.words false ["--indent", toString n] asked =
      (readIndent (toString n)).map fun n => { asked with given := { indent := some n } } := by
    show Reader.words false [toString n] { asked with pending := some (.option none) } = _
    rw [Reader.words, Word.ofText_toString]
    show Except.map _ (Except.map _ (readIndent (toString n))) = _
    cases readIndent (toString n) <;> rfl
  show invoke false .fmt ["--indent", toString n] = _
  rw [invoke, hwords, readIndent_toString]
  split <;> rfl

/-! ## The output -/

/-- A run that lays the text out writes the text itself. -/
def Reproduced (o : Layout) (text : String) : Prop :=
  (Report.output (prettyWith o text)).stdout = text

theorem reproduced_empty (o : Layout) : Reproduced o "" := rfl

/-- The line feed that ends an output is kept by a layout, and none is added to it. -/
theorem reproduced_stdout (ho : o.Plain) (code : String) :
    Reproduced o (Report.output (prettyWith o code)).stdout := by
  have hlaid := prettyWith_prettyWith ho code
  generalize prettyWith o code = text at hlaid
  by_cases hend : (text.isEmpty || text.endsWith "\n") = true
  · have hout : (Report.output text).stdout = text := if_pos hend
    rw [hout, Reproduced, hlaid, hout]
  · have hout : (Report.output text).stdout = text ++ "\n" := if_neg hend
    rw [hout, Reproduced, prettyWith_append_feed, hlaid, Report.stdout_append_feed]

/-- The layout with `n` spaces for each level. -/
def spaces (n : Nat) : Layout := ⟨String.ofList (List.replicate n ' '), "\n"⟩

theorem plain_spaces (n : Nat) : (spaces n).Plain where
  indent c hc := by
    rw [spaces, String.toList_ofList] at hc
    exact .inl (List.eq_of_mem_replicate hc)
  newline := Layout.plain_default.newline
  newline_ne := Layout.plain_default.newline_ne

variable {files files' : Files Id} {places places' words words' : List String}
  {verbose verbose' : Bool} {file file' : Option String}

theorem report_of_fmt (h : Invocation.ofWords words = .ok ⟨verbose, .fmt file n⟩) :
    report files places words = withScript files file (prettyWith (spaces n)) := by
  rw [report, h]
  rfl

/-- What a run writes is reproduced, also where there is no script to lay out. -/
theorem reproduced_report (h : Invocation.ofWords words = .ok ⟨verbose, .fmt file n⟩) :
    Reproduced (spaces n) (report files places words).stdout := by
  rw [report_of_fmt h, withScript]
  cases files.read file with
  | error e => exact reproduced_empty (spaces n)
  | ok code => exact reproduced_stdout (plain_spaces n) code

theorem report_of_read (h : Invocation.ofWords words = .ok ⟨verbose, .fmt file n⟩) {text : String}
    (hread : files.read file = .ok text) :
    report files places words = .output (prettyWith (spaces n) text) := by
  rw [report_of_fmt h, withScript, hread]
  rfl

/-- Two command lines that ask for the same indentation; the second run reads what the first has
written. -/
theorem report_of_report (h : Invocation.ofWords words = .ok ⟨verbose, .fmt file n⟩)
    (h' : Invocation.ofWords words' = .ok ⟨verbose', .fmt file' n⟩)
    (hread : files'.read file' = .ok (report files places words).stdout) :
    (report files' places' words').status = 0 ∧
      (report files' places' words').stdout = (report files places words).stdout := by
  rw [report_of_read h' hread]
  exact ⟨rfl, reproduced_report h⟩

/-- A layout finds nothing to change in what a layout has written, and keeps a line feed at the end
of a script. So a run of `fmt` on the output of another with the same indentation writes that
output. -/
theorem fmt_own_output :
    (∀ (o : Layout) (code : String), o.Plain →
      prettyWith o (prettyWith o code) = prettyWith o code ∧
        prettyWith o (code ++ "\n") = prettyWith o code ++ "\n") ∧
    ∀ (files files' : Files Id) (places places' : List String) (n : Nat),
      (files'.read none = .ok (report files places (fmtWords n)).stdout →
        (report files' places' (fmtWords n)).stdout =
          (report files places (fmtWords n)).stdout) ∧
      ∀ (words words' : List String) (verbose verbose' : Bool) (file file' : Option String),
        Invocation.ofWords words = .ok ⟨verbose, .fmt file n⟩ →
        Invocation.ofWords words' = .ok ⟨verbose', .fmt file' n⟩ →
        files'.read file' = .ok (report files places words).stdout →
          (report files' places' words').status = 0 ∧
            (report files' places' words').stdout = (report files places words).stdout := by
  refine ⟨fun o code ho => ⟨prettyWith_prettyWith ho code, prettyWith_append_feed o code⟩,
    fun files files' places places' n => ⟨fun hread => ?_, fun _ _ _ _ _ _ => report_of_report⟩⟩
  have hwords := ofWords_fmtWords n
  by_cases hn : n < bound64
  · rw [if_pos hn] at hwords
    exact (report_of_report hwords hwords hread).2
  · -- a number out of range is refused, and nothing is written
    rw [if_neg hn] at hwords
    rw [report, report, hwords]

/-- A script from the standard input, laid out again from there and from a file. -/
theorem fmt_own_output_three :
    let o : Layout := ⟨" \t", "\r\n"⟩
    let code := ")\t(f\\\n(g \"(\n\"(h)) ; (\r\u00a0(k)) \\"
    let text := ")\t\n(f\\\n\n   (g \"(\n\"\n      (h)) ; (\r\u00a0\n   (k)) \\"
    let input : Files Id := ⟨fun _ => .ok code, fun _ => false⟩
    let out := (report input [] (fmtWords 3)).stdout
    let output : Files Id := ⟨fun _ => .ok out, fun _ => false⟩
    let words := ["-v", "fmt", "script", "--indent=3"]
    o.Plain ∧ prettyWith o (prettyWith o code) = prettyWith o code ∧
      report input [] (fmtWords 3) = .output text ∧
      Invocation.ofWords words = .ok ⟨true, .fmt (some "script") 3⟩ ∧
      (report output [] (fmtWords 3)).stdout = out ∧ (report output [] words).stdout = out := by
  intro o code text input out output words
  have ho : o.Plain := by decide
  have htext : prettyWith (spaces 3) code = text := by decide +kernel
  have hfmt : Invocation.ofWords (fmtWords 3) = .ok ⟨false, .fmt none 3⟩ := ofWords_fmtWords 3
  have hwords : Invocation.ofWords words = .ok ⟨true, .fmt (some "script") 3⟩ := by decide +kernel
  obtain ⟨hlaid, hruns⟩ := fmt_own_output
  obtain ⟨hagain, hother⟩ := hruns input output [] [] 3
  refine ⟨ho, (hlaid o code ho).1, ?_, hwords, hagain rfl,
    (hother _ _ _ _ _ _ hfmt hwords rfl).2⟩
  rw [report_of_read hfmt rfl, htext]

end LispBridge.Command
