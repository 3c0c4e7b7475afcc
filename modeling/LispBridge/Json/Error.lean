/-!
Why a text is no JSON document, and where.
-/

namespace LispBridge.Json

inductive Cause
  | endInValue
  | endInList
  | endInObject
  | endInString
  | expectedValue
  | expectedIdent
  | expectedColon
  | expectedListEnd
  | expectedObjectEnd
  | keyNotString
  | trailingComma
  | trailingCharacters
  | invalidNumber
  | numberOutOfRange
  | invalidEscape
  | controlCharacter
  | loneSurrogate
  | brokenSurrogatePair
  | tooDeep
  deriving DecidableEq, Repr

def Cause.message : Cause → String
  | .endInValue => "EOF while parsing a value"
  | .endInList => "EOF while parsing a list"
  | .endInObject => "EOF while parsing an object"
  | .endInString => "EOF while parsing a string"
  | .expectedValue => "expected value"
  | .expectedIdent => "expected ident"
  | .expectedColon => "expected `:`"
  | .expectedListEnd => "expected `,` or `]`"
  | .expectedObjectEnd => "expected `,` or `\x7d`"
  | .keyNotString => "key must be a string"
  | .trailingComma => "trailing comma"
  | .trailingCharacters => "trailing characters"
  | .invalidNumber => "invalid number"
  | .numberOutOfRange => "number out of range"
  | .invalidEscape => "invalid escape"
  | .controlCharacter => "control character (\\u0000-\\u001F) found while parsing a string"
  | .loneSurrogate => "lone leading surrogate in hex escape"
  | .brokenSurrogatePair => "unexpected end of hex escape"
  | .tooDeep => "recursion limit exceeded"

/-- What is wrong with a text and where: the line, counted from one, and the number of bytes of
that line up to and with the offending one. -/
structure ParseError where
  cause : Cause
  line : Nat
  column : Nat
  deriving DecidableEq, Repr

def ParseError.message (e : ParseError) : String :=
  s!"{e.cause.message} at line {e.line} column {e.column}"

/-- The number of bytes that a text takes up. -/
def byteLength (cs : List Char) : Nat :=
  cs.foldr (fun c n => c.utf8Size + n) 0

/-- The line and column after the given number of bytes, from a line and column on. A count that
ends inside of a character counts the bytes before its end. -/
def positionFrom (line column : Nat) : (bytes : Nat) → List Char → Nat × Nat
  | _, [] => (line, column)
  | bytes, c :: cs =>
    if bytes < c.utf8Size then (line, column + bytes)
    else if c = '\n' then positionFrom (line + 1) 0 (bytes - 1) cs
    else positionFrom line (column + c.utf8Size) (bytes - c.utf8Size) cs

/-- A cause and how many bytes follow the offending one. -/
structure Stop where
  cause : Cause
  left : Nat
  deriving DecidableEq, Repr

/-- A stop after what has been read, where `rest` is still to be read. -/
def Stop.before (cause : Cause) (rest : List Char) : Stop :=
  ⟨cause, byteLength rest⟩

/-- A stop at the next byte to be read, or at the end where there is none. -/
def Stop.at (cause : Cause) (rest : List Char) : Stop :=
  ⟨cause, byteLength rest - 1⟩

/-- The error that a stop means for a text. -/
def Stop.toError (s : Stop) (text : List Char) : ParseError :=
  let position := positionFrom 1 0 (byteLength text - s.left) text
  ⟨s.cause, position.1, position.2⟩

end LispBridge.Json
