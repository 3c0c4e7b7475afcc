import LispBridge.Chars.Numeral
import LispBridge.Json.NumberReader

/-!
Reading JSON documents.

A document is a value with white space around it. Arrays and objects can be nested 127 deep. The
fields of an object are sorted by name, and of fields with one name the last counts.
-/

namespace LispBridge.Json

/-- Whether a character may stand between the parts of a document. -/
def isWhite (c : Char) : Bool :=
  c = ' ' || c = '\t' || c = '\n' || c = '\r'

/-- A text without the white space it starts with. -/
def skipWhite (cs : List Char) : List Char :=
  cs.dropWhile isWhite

/-- How deep arrays and objects can be nested. -/
def maxDepth : Nat := 127

/-! ## Words and strings -/

/-- Reads the rest of a word that stands for a value. -/
def readWord (value : Json) : (word : List Char) → List Char → Reading Json
  | [], cs => .ok (value, cs)
  | _ :: _, [] => .error (.before .endInValue [])
  | w :: ws, c :: cs =>
    if w = c then readWord value ws cs else .error (.at .expectedIdent (c :: cs))

/-- Reads the four digits of an escaped code unit. -/
def readUnit (cs : List Char) : Reading Nat :=
  if byteLength cs < 4 then .error ⟨.endInString, 0⟩
  else match (cs.take 4).mapM (Chars.digit? 16) with
    | some ds => .ok (Chars.ofDigits 16 ds, cs.drop 4)
    | none => .error ⟨.invalidEscape, byteLength cs - 4⟩

/-- Whether a code unit is the first of a surrogate pair. -/
def isLeading (n : Nat) : Bool := 0xD800 ≤ n && n ≤ 0xDBFF

/-- Whether a code unit is the second of a surrogate pair. -/
def isTrailing (n : Nat) : Bool := 0xDC00 ≤ n && n ≤ 0xDFFF

/-- The character that a surrogate pair stands for. -/
def pairedChar (lead trail : Nat) : Char :=
  Char.ofNat ((lead - 0xD800) * 0x400 + (trail - 0xDC00) + 0x10000)

/-- Passes over a character that must follow the first half of a surrogate pair. -/
def expectInPair (x : Char) : List Char → Except Stop (List Char)
  | [] => .error (.before .endInString [])
  | c :: cs => if c = x then .ok cs else .error (.at .brokenSurrogatePair (c :: cs))

/-- Reads the second half of a surrogate pair. -/
def readTrailing (lead : Nat) (cs : List Char) : Except Stop (Char × List Char) := do
  let cs ← expectInPair '\\' cs
  let cs ← expectInPair 'u' cs
  let (trail, cs) ← readUnit cs
  if isTrailing trail then .ok (pairedChar lead trail, cs)
  else .error (.before .loneSurrogate cs)

/-- Reads an escaped code point, after the letter. -/
def readCodePoint (cs : List Char) : Except Stop (Char × List Char) := do
  let (n, cs) ← readUnit cs
  if isTrailing n then .error (.before .loneSurrogate cs)
  else if isLeading n then readTrailing n cs
  else .ok (Char.ofNat n, cs)

/-- The character that a letter stands for after a backslash. -/
def escaped? : Char → Option Char
  | '"' => some '"'
  | '\\' => some '\\'
  | '/' => some '/'
  | 'b' => some '\x08'
  | 'f' => some '\x0c'
  | 'n' => some '\n'
  | 'r' => some '\r'
  | 't' => some '\t'
  | _ => none

/-- Reads an escaped character, after the backslash. -/
def readEscape (cs : List Char) : Reading Char :=
  match cs with
  | [] => .error (.before .endInString [])
  | 'u' :: r => readCodePoint r
  | c :: r =>
    match escaped? c with
    | some x => .ok (x, r)
    | none => .error (.at .invalidEscape (c :: r))

/-- Reads a string, after its first quote and the characters `read`, in reverse. The fuel bounds the
number of characters that are read. -/
def readString : (fuel : Nat) → (read : List Char) → List Char → Reading String
  | 0, _, cs => .error (.before .endInString cs)
  | _ + 1, _, [] => .error (.before .endInString [])
  | fuel + 1, read, c :: cs =>
    if c = '"' then .ok (String.ofList read.reverse, cs)
    else if c = '\\' then
      match readEscape cs with
      | .ok (x, rest) => readString fuel (x :: read) rest
      | .error e => .error e
    else if c.toNat < 0x20 then .error (.before .controlCharacter cs)
    else readString fuel (c :: read) cs

/-- Reads a string, after its first quote. -/
def readQuoted (cs : List Char) : Reading String :=
  readString (cs.length + 1) [] cs

/-- Reads a field's name and the colon after it, after the first quote. -/
def readName (cs : List Char) : Except Stop (String × List Char) := do
  let (name, cs) ← readQuoted cs
  match skipWhite cs with
  | [] => .error (.before .endInObject [])
  | c :: rest => if c = ':' then .ok (name, rest) else .error (.at .expectedColon (c :: rest))

/-! ## Values

The fuel bounds how many of these functions are entered; each character is read by at most two of
them. -/

mutual

/-- Reads a value inside of which `depth` levels can be nested. -/
def readValue : (fuel depth : Nat) → List Char → Reading Json
  | 0, _, cs => .error (.before .endInValue cs)
  | fuel + 1, depth, cs =>
    match skipWhite cs with
    | [] => .error (.before .endInValue [])
    | 'n' :: r => readWord .null "ull".toList r
    | 't' :: r => readWord (.bool true) "rue".toList r
    | 'f' :: r => readWord (.bool false) "alse".toList r
    | '-' :: r => (readNumber true r).map fun p => (.number p.1, p.2)
    | '"' :: r => (readQuoted r).map fun p => (.string p.1, p.2)
    | '[' :: r =>
      match depth with
      | 0 => .error (.at .tooDeep ('[' :: r))
      | depth + 1 =>
        match skipWhite r with
        | [] => .error (.before .endInList [])
        | ']' :: rest => .ok (.array [], rest)
        | rest => readItem fuel depth [] rest
    | '{' :: r =>
      match depth with
      | 0 => .error (.at .tooDeep ('{' :: r))
      | depth + 1 =>
        match skipWhite r with
        | [] => .error (.before .endInObject [])
        | '}' :: rest => .ok (.object [], rest)
        | '"' :: rest => readField fuel depth [] rest
        | rest => .error (.at .keyNotString rest)
    | c :: r =>
      if c.isDigit then (readNumber false (c :: r)).map fun p => (.number p.1, p.2)
      else .error (.at .expectedValue (c :: r))

/-- Reads an item of an array and all that follows it; `items` are the ones before it, in
reverse. -/
def readItem : (fuel depth : Nat) → (items : List Json) → List Char → Reading Json
  | 0, _, _, cs => .error (.before .endInValue cs)
  | fuel + 1, depth, items, cs =>
    match readValue fuel depth cs with
    | .error e => .error e
    | .ok (v, rest) =>
      match skipWhite rest with
      | [] => .error (.before .endInList [])
      | ']' :: rest => .ok (.array (v :: items).reverse, rest)
      | ',' :: rest =>
        match skipWhite rest with
        | [] => .error (.before .endInValue [])
        | ']' :: r => .error (.at .trailingComma (']' :: r))
        | rest => readItem fuel depth (v :: items) rest
      | rest => .error (.at .expectedListEnd rest)

/-- Reads a field of an object, after the first quote of its name, and all that follows it. -/
def readField : (fuel depth : Nat) → (fields : List (String × Json)) → List Char → Reading Json
  | 0, _, _, cs => .error (.before .endInValue cs)
  | fuel + 1, depth, fields, cs =>
    match readName cs with
    | .error e => .error e
    | .ok (name, rest) =>
      match readValue fuel depth rest with
      | .error e => .error e
      | .ok (v, rest) =>
        let fields := insertField name v fields
        match skipWhite rest with
        | [] => .error (.before .endInObject [])
        | '}' :: rest => .ok (.object fields, rest)
        | ',' :: rest =>
          match skipWhite rest with
          | [] => .error (.before .endInValue [])
          | '"' :: rest => readField fuel depth fields rest
          | '}' :: r => .error (.at .trailingComma ('}' :: r))
          | rest => .error (.at .keyNotString rest)
        | rest => .error (.at .expectedObjectEnd rest)

end

/-- Reads a whole text as a document. -/
def readDocument (cs : List Char) : Except Stop Json :=
  match readValue (2 * cs.length + 1) maxDepth cs with
  | .error e => .error e
  | .ok (v, rest) =>
    match skipWhite rest with
    | [] => .ok v
    | rest => .error (.at .trailingCharacters rest)

def ofText (s : String) : Except ParseError Json :=
  match readDocument s.toList with
  | .ok v => .ok v
  | .error stop => .error (stop.toError s.toList)

end LispBridge.Json
