import LispBridge.Command.Invocation
import LispBridge.Chars.Numeral

/-!
Reading a command line.

Options stand before the subcommand or among its operands, until a lone `--` ends them. An option
can be given once before the subcommand and once after it. The value of an option or operand is
looked at only when the next option or operand, or the end, is reached, so that an unknown option
is reported before a bad value that precedes it.
-/

namespace LispBridge.Command

open Library (Entry)

/-! ## Grammar -/

inductive Opt
  | verbose
  | help
  | version
  | lines
  | indent
  deriving DecidableEq, Repr

/-- The name of an option after two dashes. -/
def Opt.long : Opt → String
  | .verbose => "verbose"
  | .help => "help"
  | .version => "version"
  | .lines => "lines"
  | .indent => "indent"

/-- The letter of an option after one dash. -/
def Opt.letter? : Opt → Option Char
  | .verbose => some 'v'
  | .help => some 'h'
  | .version => some 'V'
  | .lines | .indent => none

def Opt.takesValue : Opt → Bool
  | .indent => true
  | _ => false

inductive Operand
  | file
  | decls
  deriving DecidableEq, Repr

/-- Whether an operand can have many values. -/
def Operand.repeats : Operand → Bool
  | .file => false
  | .decls => true

inductive Subcommand
  | fmt
  | minify
  | library
  | declare
  | embed
  | config
  deriving DecidableEq, Repr

namespace Subcommand

def all : List Subcommand := [.fmt, .minify, .library, .declare, .embed, .config]

def name : Subcommand → String
  | .fmt => "fmt"
  | .minify => "minify"
  | .library => "library"
  | .declare => "declare"
  | .embed => "embed"
  | .config => "config"

def ofName? (s : String) : Option Subcommand :=
  all.find? (·.name == s)

def options : Subcommand → List Opt
  | .fmt => [.verbose, .help, .indent]
  | .library => [.verbose, .help, .lines]
  | _ => [.verbose, .help]

/-- The operands that a subcommand has, in their order. -/
def operands : Subcommand → List Operand
  | .declare => [.decls]
  | .embed => [.file, .decls]
  | _ => [.file]

end Subcommand

/-- The options before the subcommand. -/
def globalOptions : List Opt := [.verbose, .help, .version]

/-! ## Words -/

/-- The form of a word that can be an option. -/
inductive Word
  /-- The word that ends the options. -/
  | escape
  /-- An option by its name, perhaps with a value after an equals sign. -/
  | long (name : List Char) (value : Option (List Char))
  | short (letters : List Char)
  | plain
  deriving DecidableEq, Repr

/-- The form of a word. A dash alone is no option. -/
def Word.ofText (s : String) : Word :=
  match s.toList with
  | ['-', '-'] => .escape
  | '-' :: '-' :: body =>
    match Chars.splitOnce '=' body with
    | some (name, value) => .long name (some value)
    | none => .long body none
  | '-' :: c :: cs => .short (c :: cs)
  | _ => .plain

/-! ## Values -/

/-- What has been given and looked at. -/
structure Given where
  flags : List Opt := []
  indent : Option Nat := none
  file : Option String := none
  decls : List Entry := []
  deriving DecidableEq, Repr

/-- What has been given and not looked at yet. -/
inductive Pending
  /-- An option that takes a value, and the value, if it has come. -/
  | option (value : Option String)
  | operand (o : Operand) (values : List String)
  deriving DecidableEq, Repr

def readDecls : List String → Except Refusal (List Entry)
  | [] => .ok []
  | s :: rest =>
    match Entry.ofText s with
    | .error _ => .error .badValue
    | .ok e => (readDecls rest).map (e :: ·)

/-- Reads the number of spaces for each level. -/
def readIndent (s : String) : Except Refusal Nat :=
  match Chars.unsigned? Chars.bound64 s.toList with
  | some n => .ok n
  | none => .error .badValue

def Given.look (g : Given) : Pending → Except Refusal Given
  | .option none => .error .emptyValue
  | .option (some s) =>
    if g.indent.isSome then .error .conflict
    else (readIndent s).map fun n => { g with indent := some n }
  | .operand .file values =>
    match values.getLast? with
    | none | some "" => .error .emptyValue
    | some s => .ok { g with file := some s }
  | .operand .decls values => (readDecls values).map fun es => { g with decls := g.decls ++ es }

/-- How far the reading of a command line has come. -/
structure Reader where
  given : Given := {}
  pending : Option Pending := none
  options : List Opt
  /-- The operands that can still be given. -/
  operands : List Operand := []
  deriving DecidableEq, Repr

namespace Reader

def settle (r : Reader) : Except Refusal Reader :=
  match r.pending with
  | none => .ok r
  | some p => (r.given.look p).map fun g => { r with given := g, pending := none }

def flag (o : Opt) (r : Reader) : Except Refusal Reader := do
  let r ← r.settle
  match o with
  | .help => .error .help
  | .version => .error .version
  | _ =>
    if o ∈ r.given.flags then .error .conflict
    else .ok { r with given := { r.given with flags := o :: r.given.flags } }

def letters : List Char → Reader → Except Refusal Reader
  | [], r => .ok r
  | c :: cs, r =>
    match r.options.find? (·.letter? == some c) with
    | none => .error .unknownArgument
    | some o => do letters cs (← r.flag o)

/-- Takes an option by its name. A value after an equals sign is looked at at once. -/
def long (name : List Char) (value : Option (List Char)) (r : Reader) : Except Refusal Reader :=
  match r.options.find? (·.long.toList == name), value with
  | none, _ => .error .unknownArgument
  | some o, none =>
    if o.takesValue then r.settle.map fun r => { r with pending := some (.option none) }
    else r.flag o
  | some o, some v =>
    if o.takesValue then do
      let r ← r.settle
      settle { r with pending := some (.option (some (String.ofList v))) }
    else .error .surplusValue

def operand (s : String) (r : Reader) : Except Refusal Reader :=
  match r.operands with
  | [] => .error .unknownArgument
  | o :: rest =>
    let left := if o.repeats then o :: rest else rest
    match r.pending with
    | some (.operand p values) =>
      if p = o then .ok { r with pending := some (.operand o (values ++ [s])), operands := left }
      else r.settle.map fun r => { r with pending := some (.operand o [s]), operands := left }
    | _ => r.settle.map fun r => { r with pending := some (.operand o [s]), operands := left }

/-- Takes a word that is no option: the value that an option waits for, or an operand. -/
def plain (s : String) (r : Reader) : Except Refusal Reader :=
  match r.pending with
  | some (.option none) => .ok { r with pending := some (.option (some s)) }
  | _ => r.operand s

/-- Reads the words after a subcommand; `ended` says whether the options have ended. -/
def words : (ended : Bool) → List String → Reader → Except Refusal Reader
  | _, [], r => r.settle
  | true, s :: rest, r => do words true rest (← r.operand s)
  | false, s :: rest, r =>
    match Word.ofText s with
    | .escape => words true rest r
    | .long name value => do words false rest (← r.long name value)
    | .short cs => do words false rest (← r.letters cs)
    | .plain => do words false rest (← r.plain s)

end Reader

/-! ## The whole command line -/

/-- The task of a subcommand with what was given to it. -/
def Subcommand.task (c : Subcommand) (g : Given) : Except Refusal Task :=
  match c with
  | .fmt => .ok (.fmt g.file (g.indent.getD 2))
  | .minify => .ok (.minify g.file)
  | .library => .ok (.library g.file (Opt.lines ∈ g.flags))
  | .declare => if g.decls.isEmpty then .error .missingRequired else .ok (.declare g.decls)
  | .embed =>
    match g.file with
    | some file => .ok (.embed file g.decls)
    | none => .error .missingRequired
  | .config => .ok (.config g.file)

/-- What asking for help on subcommands comes to; no subcommand has subcommands of its own. -/
def helpOn : List String → Refusal
  | [] => .help
  | [name] =>
    if name = "help" ∨ (Subcommand.ofName? name).isSome then .help else .invalidSubcommand
  | _ => .invalidSubcommand

/-- The invocation of a subcommand with the words after it. -/
def invoke (verbose : Bool) (c : Subcommand) (words : List String) :
    Except Refusal Invocation := do
  let r ← Reader.words false words { options := c.options, operands := c.operands }
  let task ← c.task r.given
  .ok ⟨verbose || Opt.verbose ∈ r.given.flags, task⟩

/-- What a word that is no option means where a subcommand is due. -/
def subcommandOf (ended : Bool) (name : String) (rest : List String) (r : Reader) :
    Except Refusal Invocation :=
  match Subcommand.ofName? name with
  | some c =>
    if ended then .error .unknownArgument
    else invoke (Opt.verbose ∈ r.given.flags) c rest
  | none =>
    if name = "help" then .error (if ended then .unknownArgument else helpOn rest)
    else .error .invalidSubcommand

/-- Reads the words up to the subcommand, and the rest by its grammar. -/
def readGlobal : (ended : Bool) → List String → Reader → Except Refusal Invocation
  | _, [], r => .error (if r.given.flags.isEmpty then .nothingAsked else .missingSubcommand)
  | true, s :: rest, r => subcommandOf true s rest r
  | false, s :: rest, r =>
    match Word.ofText s with
    | .escape => readGlobal true rest r
    | .long name value => do readGlobal false rest (← r.long name value)
    | .short cs => do readGlobal false rest (← r.letters cs)
    | .plain => subcommandOf false s rest r

/-- Reads a command line, without the program's name. -/
def Invocation.ofWords (words : List String) : Except Refusal Invocation :=
  readGlobal false words { options := globalOptions }

end LispBridge.Command
