import LispBridge.Chars.Blank
import LispBridge.Format.Mode

/-!
Squeezing a script onto one line.

Comments are dropped, and the blanks between two characters of code become one space, or none at
the ends of the text, after an opening bracket and before a closing one. Strings are kept as they
are.
-/

namespace LispBridge.Format

/-- Where a squeeze stands: the mode, the character written last, and whether blanks or a comment
were passed over since. -/
structure Squeeze where
  mode : Mode := .code
  last : Option Char := none
  gap : Bool := false
  deriving DecidableEq, Repr

/-- Whether a space is due before the character that is written next. -/
def Squeeze.spaceBefore (k : Squeeze) (c : Char) : Bool :=
  k.gap && (match k.last with
    | none | some '(' | some '[' => false
    | some _ => c ≠ ')' && c ≠ ']')

/-- Whether a character is passed over: it is part of a comment, or a blank in code. -/
def Squeeze.skips (k : Squeeze) (c : Char) : Bool :=
  match k.mode with
  | .code => c = ';' || Chars.isBlank c
  | .comment => true
  | _ => false

/-- Whether a character that is passed over leaves a gap: a blank does, and of a comment the line
break that ends it. -/
def Squeeze.opensGap (k : Squeeze) (c : Char) : Bool :=
  match k.mode with
  | .code => Chars.isBlank c
  | .comment => isBreak c
  | _ => false

def Squeeze.emit (k : Squeeze) (c : Char) : List Char :=
  if k.skips c then [] else if k.spaceBefore c then [' ', c] else [c]

def Squeeze.next (k : Squeeze) (c : Char) : Squeeze :=
  if k.skips c then ⟨k.mode.next c, k.last, k.gap || k.opensGap c⟩
  else ⟨k.mode.next c, some c, false⟩

/-- Squeezes a text from a state on. -/
def Squeeze.run : Squeeze → List Char → List Char
  | _, [] => []
  | k, c :: cs => k.emit c ++ (k.next c).run cs

def minify (code : String) : String :=
  String.ofList (Squeeze.run {} code.toList)

end LispBridge.Format
