import LispBridge.Chars.Line
import LispBridge.Library.Declaration

/-!
The library block of a script, and the library a script runs with.

A script declares host functions of its own in comment lines between a line with the opening
sentinel and one with the closing sentinel. `renderBlock` writes such a block, `parseBlock` reads
the blocks of a script, `embedBlock` replaces them, and `buildLibrary` gives the one-line form for
the interpreter: the predefined functions, then the script's own.
-/

namespace LispBridge.Library

open Chars

def openingSentinel : String := "begin-user-library"

def closingSentinel : String := "end-user-library"

/-- Whether a line holds the opening sentinel. -/
def opens (line : List Char) : Bool := contains openingSentinel.toList line

/-- Whether a line holds the closing sentinel. -/
def closes (line : List Char) : Bool := contains closingSentinel.toList line

/-- The functions that every device has. -/
def predefined : List Entry :=
  [⟨"dwrite", ["pin", "state"]⟩, ⟨"dread", ["pin"]⟩, ⟨"awrite", ["pin", "value"]⟩,
    ⟨"aread", ["pin"]⟩, ⟨"bclicked", ["button_id"]⟩, ⟨"is_event", ["event"]⟩,
    ⟨"pop_event", ["event"]⟩, ⟨"push_event", ["event", "value"]⟩]

/-! ## Writing -/

/-- The comment lines before the declarations of a block. -/
def blockHead : String :=
  ";;; begin-user-library\n" ++
  ";; This block describes the library of user functions.\n" ++
  ";; So the editor knows that your device implements it.\n" ++
  ";\n"

/-- The lines after the declarations of a block. -/
def blockTail : String :=
  ";\n" ++
  ";;; end-user-library\n\n"

/-- Writes entries as a block. Without entries there is no block. -/
def renderBlock (entries : List Entry) : String :=
  if entries.isEmpty then ""
  else blockHead ++ String.join (entries.map fun e => "; " ++ e.declaration ++ "\n") ++ blockTail

/-- Writes entries in the form that the interpreter reads. -/
def renderWire (entries : List Entry) : String :=
  " ".intercalate (entries.map Entry.declaration)

/-! ## Reading -/

/-- Reads lines, with a block open or not: whether one is open at the end, and the entries that the
lines inside of blocks declare. A line with both sentinels opens a block. -/
def scan : Bool → List (List Char) → Bool × List Entry
  | inside, [] => (inside, [])
  | inside, l :: ls =>
    if opens l then scan true ls
    else if closes l then scan false ls
    else
      let r := scan inside ls
      if inside then (r.1, (findDeclaration? l).toList ++ r.2) else r

/-- The entries that the blocks of a script declare; none if a block is left open. -/
def parseBlock (source : String) : List Entry :=
  let r := scan false (lines source.toList)
  if r.1 then [] else r.2

/-- The functions a script can call: the predefined ones and then its own. Names can repeat. -/
def fullLibrary (source : String) : List Entry :=
  predefined ++ parseBlock source

/-- The library of a script in the form that the interpreter reads. -/
def buildLibrary (source : String) : String :=
  renderWire (fullLibrary source)

/-! ## Replacing -/

/-- The lines that remain when closed blocks are removed. `held` are the lines since the sentinel
that opened the current block, in reverse; they remain if it is never closed. In an open block a
line with both sentinels closes it. -/
def strip : (held : Option (List (List Char))) → List (List Char) → List (List Char)
  | none, [] => []
  | some held, [] => held.reverse
  | none, l :: ls => if opens l then strip (some []) ls else l :: strip none ls
  | some held, l :: ls => if closes l then strip none ls else strip (some (l :: held)) ls

/-- A script without its blocks. -/
def stripBlocks (source : List Char) : List Char :=
  (strip none (linesWithEnds source)).flatten

/-- A script with its blocks replaced by one block at its top. -/
def embedBlock (source : String) (entries : List Entry) : String :=
  renderBlock entries ++ String.ofList ((stripBlocks source.toList).dropWhile (· = '\n'))

end LispBridge.Library
