/-!
The lines of a text.

`linesWithEnds` cuts after every line feed, so that the lines put together are the text again;
`lines` removes each line's end, a line feed with at most one carriage return before it.
-/

namespace LispBridge.Chars

/-- The lines of a text with their ends; only the last can lack a line feed, and none is empty. -/
def linesWithEnds : List Char → List (List Char)
  | [] => []
  | c :: cs =>
    if c = '\n' then ['\n'] :: linesWithEnds cs
    else match linesWithEnds cs with
      | [] => [[c]]
      | l :: ls => (c :: l) :: ls

/-- A line without its end. A carriage return belongs to the end only before a line feed. -/
def chomp (l : List Char) : List Char :=
  match l.reverse with
  | '\n' :: '\r' :: r => r.reverse
  | '\n' :: r => r.reverse
  | _ => l

/-- The lines of a text without their ends. -/
def lines (cs : List Char) : List (List Char) :=
  (linesWithEnds cs).map chomp

/-- The lines with their ends make up the text. -/
theorem flatten_linesWithEnds (cs : List Char) : (linesWithEnds cs).flatten = cs := by
  induction cs with
  | nil => rfl
  | cons c cs ih =>
    rw [linesWithEnds]
    split
    · simp [*]
    · split
      · next h => rw [h] at ih; simpa using ih
      · next h => rw [h] at ih; simpa using ih

end LispBridge.Chars
