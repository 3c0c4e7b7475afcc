import LispBridge.Chars.Numeral
import LispBridge.Chars.Search
import LispBridge.Library.Entry

/-!
Reading declarations.

A declaration is the text

    "(defjs" blank+ name blank* "(" blank* (param (blank+ param)*)? blank* ")" blank* ")"

with identifiers as names. `declarationAt?` reads one at the front of a text, `findDeclaration?`
the leftmost one anywhere in a line, and `Entry.ofText` accepts it, and two shorter forms, as a
whole text. In `name/N` the number `N` is any that 64 bits hold; as memory is taken as unbounded, a
number of parameters for whose names a machine has no room makes an entry like any other.
-/

namespace LispBridge.Library

open Chars

/-- The text after a character that must come next. -/
def expect (x : Char) : List Char → Option (List Char)
  | [] => none
  | c :: cs => if c = x then some cs else none

/-- The text after a required run of characters that satisfy `p`, together with the run. -/
def run? (p : Char → Bool) (cs : List Char) : Option (List Char × List Char) :=
  let run := cs.takeWhile p
  if run.isEmpty then none else some (run, cs.dropWhile p)

/-- Reads a declaration at the front of a text; the rest of the text comes with it. -/
def declarationAt? (cs : List Char) : Option (Entry × List Char) := do
  let cs ← afterPrefix? "(defjs".toList cs
  let (_, cs) ← run? isBlank cs
  let (name, cs) ← run? isIdentChar cs
  let cs ← expect '(' (trimStart cs)
  let params := cs.takeWhile fun c => isIdentChar c || isBlank c
  let cs ← expect ')' (cs.dropWhile fun c => isIdentChar c || isBlank c)
  let cs ← expect ')' (trimStart cs)
  pure (⟨String.ofList name, (words params).map String.ofList⟩, cs)

/-- The entry of the leftmost declaration in a text. -/
def findDeclaration? : List Char → Option Entry
  | [] => none
  | c :: cs =>
    match declarationAt? (c :: cs) with
    | some (e, _) => some e
    | none => findDeclaration? cs

/-- The text is no declaration in any accepted form. -/
structure DeclarationError where
  /-- The text without the blanks around it. -/
  text : String
  deriving DecidableEq, Repr

def DeclarationError.message (e : DeclarationError) : String :=
  s!"invalid declaration '{e.text}': expected name(a b …), name/N, or (defjs name (a b …))"

/-- Reads `name/N`, where the slash has been found. -/
def arityForm? (name count : List Char) : Option Entry :=
  (unsigned? bound64 (trim count)).bind fun n =>
    if isIdent (trim name) then some (.ofParams (String.ofList (trim name)) (.count n)) else none

/-- The text without its last character, if that is `x`. -/
def dropLast? (x : Char) (cs : List Char) : Option (List Char) :=
  if cs.getLast? = some x then some cs.dropLast else none

/-- Reads `name(a b)`, where the bracket that opens has been found. -/
def shortForm? (name rest : List Char) : Option Entry :=
  (dropLast? ')' rest).bind fun inner =>
    if isIdent (trim name) && (words inner).all isIdent then
      some ⟨String.ofList (trim name), (words inner).map String.ofList⟩
    else none

/-- Reads a whole text without blanks around it as an entry: a full declaration if it starts with a
bracket, else `name/N` if it holds a slash, else `name(a b)`. -/
def entryOf? (t : List Char) : Option Entry :=
  if t.head? = some '(' then
    match declarationAt? t with
    | some (e, []) => some e
    | _ => none
  else match splitOnce '/' t with
    | some (name, count) => arityForm? name count
    | none =>
      match splitOnce '(' t with
      | some (name, rest) => shortForm? name rest
      | none => none

/-- Reads a whole text as an entry, ignoring the blanks around it. -/
def Entry.ofText (s : String) : Except DeclarationError Entry :=
  let t := trim s.toList
  match entryOf? t with
  | some e => .ok e
  | none => .error ⟨String.ofList t⟩

end LispBridge.Library
