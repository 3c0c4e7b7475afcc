import LispBridge.Library.Declaration

/-!
What a command line asks for, and how it can be at fault.
-/

namespace LispBridge.Command

open Library (Entry)

inductive Task
  /-- Lays a script out, with a number of spaces for each level. -/
  | fmt (file : Option String) (indent : Nat)
  | minify (file : Option String)
  /-- Shows the library that a script runs with, on one line or many. -/
  | library (file : Option String) (lines : Bool)
  | declare (decls : List Entry)
  /-- Replaces the library block of a script. -/
  | embed (file : String) (decls : List Entry)
  | config (file : Option String)
  deriving DecidableEq, Repr

/-- A task and whether to report on its progress. -/
structure Invocation where
  verbose : Bool
  task : Task
  deriving DecidableEq, Repr

/-- Why a command line yields no invocation. The last three are answered by text about the
program. -/
inductive Refusal
  | missingRequired
  /-- There are options but no subcommand. -/
  | missingSubcommand
  | invalidSubcommand
  /-- There is no such option, or no place for another operand. -/
  | unknownArgument
  | badValue
  | emptyValue
  /-- An option that takes no value is given one. -/
  | surplusValue
  | conflict
  | help
  | version
  | nothingAsked
  deriving DecidableEq, Repr

end LispBridge.Command
