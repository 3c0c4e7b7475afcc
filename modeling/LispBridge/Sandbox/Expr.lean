import LispBridge.Chars.Blank
import LispBridge.Chars.Line
import LispBridge.Chars.Numeral
import LispBridge.Chars.Search
import LispBridge.Json.Writer
import LispBridge.Value.Basic

/-!
Expressions and values of the sandbox interpreter.
-/

namespace LispBridge.Sandbox

inductive Expr
  | atom (name : String)
  | list (items : List Expr)
  deriving Repr

inductive Value
  /-- A whole number of 64 bits. -/
  | number (i : Int)
  | yes
  | nil
  | symbol (s : String)
  /-- A value that has no JSON text. -/
  | raw
  deriving DecidableEq, Repr

namespace Value

/-- The text of a value in a request. -/
def wire : Value → String
  | .number i => toString i
  | .yes => trueText
  | .nil => falseText
  | .symbol s => s
  | .raw => "raw"

/-- The text of a value in the output. -/
def output : Value → String
  | .number i => (Json.ofInt i).compact
  | .yes => (Json.bool true).compact
  | .nil => Json.null.compact
  | .symbol s => (Json.string s).compact
  | .raw => "<not json>"

/-- Whole numbers lie between this bound and its negative, which is one of them. -/
def bound : Nat := 0x8000000000000000

/-- The value that an atom stands for. -/
def ofAtom (s : String) : Value :=
  if s = trueText then .yes
  else if s = falseText ∨ s = "nil" then .nil
  else match Chars.signed? bound s.toList with
    | some i => .number i
    | none => .symbol s

end Value

open Chars

/-- The tokens of a line: brackets, and words up to the first semicolon. -/
def lineTokens (line : List Char) : List String :=
  let code := line.takeWhile (· ≠ ';')
  let spaced := code.flatMap fun c => if c = '(' ∨ c = ')' then [' ', c, ' '] else [c]
  (words spaced).map String.ofList

def tokens (script : String) : List String :=
  (lines script.toList).flatMap lineTokens

inductive FormError
  | unbalanced
  | unexpectedClose
  deriving DecidableEq, Repr

def FormError.message : FormError → String
  | .unbalanced => "unbalanced parens"
  | .unexpectedClose => "unexpected )"

/-- The expressions that tokens make up, and the error that ends them, if one does. `stack` holds
the items of the lists that are still open, the innermost list first and the last item first. -/
def forms : (stack : List (List Expr)) → List String → List Expr × Option FormError
  | [], [] => ([], none)
  | _ :: _, [] => ([], some .unbalanced)
  | stack, t :: ts =>
    if t = "(" then forms ([] :: stack) ts
    else if t = ")" then
      match stack with
      | [] => ([], some .unexpectedClose)
      | [items] => let r := forms [] ts; (.list items.reverse :: r.1, r.2)
      | items :: outer :: stack => forms ((.list items.reverse :: outer) :: stack) ts
    else
      match stack with
      | [] => let r := forms [] ts; (.atom t :: r.1, r.2)
      | items :: stack => forms ((.atom t :: items) :: stack) ts

/-- The names that a library declares: the word after each opening of a declaration, without the
brackets it may end with. -/
def declaredNames (library : String) : List String :=
  (afterEach "(defjs ".toList library.toList).filterMap fun rest =>
    (words rest).head?.map fun word =>
      String.ofList (word.reverse.dropWhile (· = '(')).reverse

end LispBridge.Sandbox
