import LispBridge.Command.Arguments
import LispBridge.Format.Minify
import LispBridge.Format.Pretty
import LispBridge.Json.Writer
import LispBridge.Library.Block
import LispBridge.Settings

/-!
Carrying out the task of a command line.

Files are reached through `Files`, over any monad, so that a report can be worked out over files
that are given as a function.
-/

namespace LispBridge.Command

inductive ReadError
  | notFound
  | isDirectory
  | notUtf8
  /-- Any other cause, in words. -/
  | other (cause : String)
  deriving DecidableEq, Repr

def ReadError.message : ReadError → String
  | .notFound => "No such file or directory (os error 2)"
  | .isDirectory => "Is a directory (os error 21)"
  | .notUtf8 => "stream did not contain valid UTF-8"
  | .other cause => cause

structure Files (m : Type → Type) where
  /-- Reads a file, or the standard input. -/
  read : Option String → m (Except ReadError String)
  /-- Whether there is a file or directory of this name. -/
  present : String → m Bool

/-- What a run of the program comes to. -/
inductive Report
  | output (text : String)
  | failed (context : String) (cause : ReadError)
  | refused (reason : Refusal)
  deriving DecidableEq, Repr

def versionLine : String := "ulisp 0.1.0"

def usage : String :=
  "Usage: ulisp [-v] <COMMAND>\n\n" ++
  "  fmt     [FILE] [--indent N]  Pretty-print a script\n" ++
  "  minify  [FILE]               Strip comments and collapse whitespace\n" ++
  "  library [FILE] [--lines]     Print the wire-form library a script runs with\n" ++
  "  declare DECL...              Render a user-library block from declarations\n" ++
  "  embed   FILE [DECL...]       Replace (or insert) the user-library block of a script\n" ++
  "  config  [FILE]               Print the effective bridge configuration as JSON\n"

namespace Report

/-- The exit status: one for a failure, two for a refusal, and zero where all went well or only text
about the program was asked for. -/
def status : Report → Nat
  | .output _ => 0
  | .failed .. => 1
  | .refused .help | .refused .version => 0
  | .refused _ => 2

/-- The text on the standard output; a text that does not end in a line feed gets one. -/
def stdout : Report → String
  | .output text => if text.isEmpty || text.endsWith "\n" then text else text ++ "\n"
  | .refused .help => usage
  | .refused .version => versionLine ++ "\n"
  | _ => ""

def stderr : Report → String
  | .failed context cause => s!"Error: {context}\n\nCaused by:\n    {cause.message}\n"
  | .refused .help | .refused .version | .output _ => ""
  | .refused _ => usage

end Report

def settingsDocument (s : Settings) : Json :=
  .object (Settings.Key.all.map fun k => (k.name, .ofInt (s.get k)))

/-- The settings file's name. -/
def settingsFile : String := "ulisp.conf"

/-- The settings file of a user, where the place for such files and the user's home directory may be
known; a place that is not an absolute path does not count. -/
def userSettingsFile? (place home : Option String) : Option String :=
  match place.filter (·.startsWith "/"), home.filter (· ≠ "") with
  | some p, _ => some (p ++ "/ulisp/" ++ settingsFile)
  | none, some h => some (h ++ "/.config/ulisp/" ++ settingsFile)
  | none, none => none

/-- Where the settings file is looked for: the place named by the environment, the user's own, and
the working directory. -/
def settingsPlaces (named user : Option String) : List String :=
  named.toList ++ user.toList ++ [settingsFile]

section

variable {m : Type → Type} [Monad m] (files : Files m)

/-- Reads a script and reports what is made of it. -/
def withScript (file : Option String) (f : String → String) : m Report := do
  match ← files.read file with
  | .ok text => pure (.output (f text))
  | .error e =>
    pure (.failed ("failed to read " ++ file.getD "stdin") e)

/-- The first of the places where there is something. -/
def firstPresent : List String → m (Option String)
  | [] => pure none
  | p :: rest => do if ← files.present p then pure (some p) else firstPresent rest

/-- Reports the settings in a file, in the first file found, or by default. -/
def showSettings (places : List String) (file : Option String) : m Report := do
  let path ← match file with
    | some p => pure (some p)
    | none => firstPresent files places
  match path with
  | none => pure (.output (settingsDocument {}).indented)
  | some p =>
    match ← files.read (some p) with
    | .ok text => pure (.output (settingsDocument (Settings.ofText text).1).indented)
    | .error e => pure (.failed "cannot read config" e)

/-- Carries out a task, where settings are looked for in the given places. -/
def Task.report (places : List String) : Task → m Report
  | .fmt file indent =>
    withScript files file (Format.prettyWith ⟨String.ofList (List.replicate indent ' '), "\n"⟩)
  | .minify file => withScript files file Format.minify
  | .library file false => withScript files file Library.buildLibrary
  | .library file true =>
    withScript files file fun source =>
      String.join ((Library.fullLibrary source).map fun e => e.declaration ++ "\n")
  | .declare decls => pure (.output (Library.renderBlock decls))
  | .embed file decls => withScript files (some file) (Library.embedBlock · decls)
  | .config file => showSettings files places file

def report (places : List String) (words : List String) : m Report :=
  match Invocation.ofWords words with
  | .ok i => i.task.report files places
  | .error reason => pure (.refused reason)

end

end LispBridge.Command
