import LispBridge.Command.Report

/-!
The program: it hands its command line on, reads files, and writes the report.
-/

namespace LispBridge

/-- Reads the standard input to its end. -/
partial def readToEnd (input : IO.FS.Stream) (read : ByteArray) : IO ByteArray := do
  let bytes ← input.read 65536
  if bytes.isEmpty then return read else readToEnd input (read ++ bytes)

/-- Reads a file, or the standard input. -/
def readText (file : Option String) : IO (Except Command.ReadError String) := do
  try
    let bytes ← match file with
      | some path => IO.FS.readBinFile path
      | none => readToEnd (← IO.getStdin) .empty
    match String.fromUTF8? bytes with
    | some text => return .ok text
    | none => return .error .notUtf8
  catch
    | .noFileOrDirectory .. => return .error .notFound
    | .inappropriateType .. => return .error .isDirectory
    | e => return .error (.other e.toString)

def systemFiles : Command.Files IO where
  read := readText
  present path := do
    match ← readText (some path) with
    | .error .notFound => return false
    | _ => return true

end LispBridge

def main (args : List String) : IO UInt32 := do
  let user := LispBridge.Command.userSettingsFile? (← IO.getEnv "XDG_CONFIG_HOME")
    (← IO.getEnv "HOME")
  let places := LispBridge.Command.settingsPlaces (← IO.getEnv "ULISP_CONFIG") user
  let report ← LispBridge.Command.report LispBridge.systemFiles places args
  (← IO.getStdout).putStr report.stdout
  (← IO.getStderr).putStr report.stderr
  return UInt32.ofNat report.status
