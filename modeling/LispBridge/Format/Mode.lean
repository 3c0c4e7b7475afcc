/-!
What a character of a script belongs to.

A scan over a script is in one of five modes. A semicolon opens a comment that lasts to the end of
its line, a quote opens a string that lasts to the next quote, and a backslash takes the special
meaning off the character after it, in a string and outside.
-/

namespace LispBridge.Format

/-- Whether a character ends a line and with it a comment. -/
def isBreak (c : Char) : Bool := c = '\n' || c = '\r'

/-- What the next character of a script belongs to. -/
inductive Mode
  /-- Code, where brackets, blanks, quotes and semicolons mean something. -/
  | code
  /-- Code, right after a backslash. -/
  | escaped
  | comment
  | string
  /-- A string, right after a backslash. -/
  | stringEscaped
  deriving DecidableEq, Repr

def Mode.next : Mode → Char → Mode
  | .code, c =>
    if c = '\\' then .escaped
    else if c = '"' then .string
    else if c = ';' then .comment
    else .code
  | .escaped, _ => .code
  | .comment, c => if isBreak c then .code else .comment
  | .string, c =>
    if c = '\\' then .stringEscaped
    else if c = '"' then .code
    else .string
  | .stringEscaped, _ => .string

end LispBridge.Format
