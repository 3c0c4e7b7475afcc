import LispBridge.Format.Mode

/-!
Laying a script out by its nesting depth.

Every list that does not start a line already is moved to a line of its own, indented by its depth.
The spaces and tabs that start a line of code give way to that indentation; all other characters are
kept, comments and strings among them.
-/

namespace LispBridge.Format

/-- The texts that a layout is made of. -/
structure Layout where
  /-- One level of indentation. -/
  indent : String := "  "
  /-- What separates a list from the text before it. -/
  newline : String := "\n"
  deriving DecidableEq, Repr

/-- Where a layout stands: the mode, the number of open lists, and whether nothing but dropped
blanks stands on the line so far. -/
structure Cursor where
  mode : Mode := .code
  depth : Nat := 0
  fresh : Bool := true
  deriving DecidableEq, Repr

/-- `n` copies of a text in a row. -/
def copies (n : Nat) (cs : List Char) : List Char :=
  (List.replicate n cs).flatten

def Layout.emit (o : Layout) (k : Cursor) (c : Char) : List Char :=
  match k.mode with
  | .code =>
    if c = '(' then
      (if k.fresh then [] else o.newline.toList) ++ copies k.depth o.indent.toList ++ [c]
    else if (c = ' ' ∨ c = '\t') ∧ k.fresh then []
    else [c]
  | _ => [c]

/-- The depth after a character; a bracket that closes nothing leaves it at zero. -/
def Cursor.depthAfter (k : Cursor) (c : Char) : Nat :=
  if k.mode = .code then
    if c = '(' then k.depth + 1
    else if c = ')' then k.depth - 1
    else k.depth
  else k.depth

/-- Whether the line is still fresh after a character: a line break makes it so, and blanks and
comments leave it as it is. -/
def Cursor.freshAfter (k : Cursor) (c : Char) : Bool :=
  match k.mode with
  | .code => isBreak c || (k.fresh && (c = ' ' || c = '\t' || c = ';'))
  | .escaped => false
  | .comment => isBreak c || k.fresh
  | .string | .stringEscaped => k.fresh

def Cursor.next (k : Cursor) (c : Char) : Cursor :=
  ⟨k.mode.next c, k.depthAfter c, k.freshAfter c⟩

/-- Lays out a text from a cursor on. -/
def Layout.run (o : Layout) : Cursor → List Char → List Char
  | _, [] => []
  | k, c :: cs => o.emit k c ++ o.run (k.next c) cs

def prettyWith (o : Layout) (code : String) : String :=
  String.ofList (o.run {} code.toList)

/-- Lays out a script with two spaces for each level. -/
def pretty (code : String) : String :=
  prettyWith {} code

end LispBridge.Format
