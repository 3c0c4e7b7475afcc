import LispBridge.Chars.Line
import LispBridge.Chars.Blank
import LispBridge.Chars.Numeral

/-!
The settings of the bridge and the file they are read from.

A settings file has a line `key = value` for each setting; blank lines and lines that start with a
semicolon mean nothing. A line that sets nothing is reported with its number, and reading goes on.
-/

namespace LispBridge

/-- The sizes and limits that scripts run with. -/
structure Settings where
  /-- The bound on the interpreter's heap, in cells. -/
  maxHeap : Nat := 10000
  /-- The bound on the iterations of a task. -/
  taskLimit : Nat := 9999
  /-- The size of the buffer for a script's output, in bytes. -/
  outputCapacity : Nat := 10 * 1024 * 1024
  /-- The size of the buffer for the answer to a request, in bytes. -/
  answerCapacity : Nat := 64
  deriving DecidableEq, Repr

namespace Settings

open Chars

/-- The smallest answer buffer that a settings file can ask for; it holds `()` and its end. -/
def minAnswerCapacity : Nat := 3

/-- Why a line of a settings file sets nothing. -/
inductive Fault
  | noAssignment (line : String)
  | unknownKey (key : String)
  /-- The value is no number in the setting's range. -/
  | badNumber (key value : String)
  | notPositive (key : String)
  /-- The answer buffer would be too small. -/
  | answerTooSmall (n : Nat)
  deriving DecidableEq, Repr

def Fault.message : Fault → String
  | .noAssignment line => s!"expected 'key = value', got '{line}'"
  | .unknownKey key => s!"unknown setting '{key}'"
  | .badNumber key value => s!"{key}: invalid number '{value}'"
  | .notPositive key => s!"{key} must be greater than zero"
  | .answerTooSmall n => s!"answer_capacity must be at least {minAnswerCapacity}, got {n}"

/-- A fault and the line, counted from one, that has it. -/
structure LineFault where
  line : Nat
  fault : Fault
  deriving DecidableEq, Repr

def LineFault.display (e : LineFault) : String :=
  s!"line {e.line}: {e.fault.message}"

inductive Key
  | maxHeap
  | taskLimit
  | outputCapacity
  | answerCapacity
  deriving DecidableEq, Repr

namespace Key

def all : List Key := [.maxHeap, .taskLimit, .outputCapacity, .answerCapacity]

/-- The name of a setting in a file. -/
def name : Key → String
  | .maxHeap => "max_heap"
  | .taskLimit => "task_limit"
  | .outputCapacity => "output_capacity"
  | .answerCapacity => "answer_capacity"

def ofName? (s : String) : Option Key :=
  all.find? (·.name == s)

/-- The values of a setting lie below this bound: counts have 32 bits and sizes 64. -/
def bound : Key → Nat
  | .maxHeap | .taskLimit => bound32
  | .outputCapacity | .answerCapacity => bound64

/-- The least value that a file can give a setting. -/
def least : Key → Nat
  | .answerCapacity => minAnswerCapacity
  | _ => 1

end Key

/-- The settings with one of them changed. -/
def set (s : Settings) : Key → Nat → Settings
  | .maxHeap, n => { s with maxHeap := n }
  | .taskLimit, n => { s with taskLimit := n }
  | .outputCapacity, n => { s with outputCapacity := n }
  | .answerCapacity, n => { s with answerCapacity := n }

/-- The value of one of the settings. -/
def get (s : Settings) : Key → Nat
  | .maxHeap => s.maxHeap
  | .taskLimit => s.taskLimit
  | .outputCapacity => s.outputCapacity
  | .answerCapacity => s.answerCapacity

/-- Reads the value for a setting, a numeral in which underscores mean nothing. -/
def valueOf (key : Key) (value : List Char) : Except Fault Nat :=
  match unsigned? key.bound (value.filter (· ≠ '_')) with
  | none => .error (.badNumber key.name (String.ofList value))
  | some 0 => .error (.notPositive key.name)
  | some n => if n < key.least then .error (.answerTooSmall n) else .ok n

/-- Reads a line without blanks around it as an assignment. -/
def assignmentOf (line : List Char) : Except Fault (Key × Nat) :=
  match splitOnce '=' line with
  | none => .error (.noAssignment (String.ofList line))
  | some (key, value) =>
    let name := String.ofList (trim key)
    match Key.ofName? name with
    | none => .error (.unknownKey name)
    | some key => (valueOf key (trim value)).map fun n => (key, n)

/-- Whether a line without blanks around it means nothing. -/
def isIdle (line : List Char) : Bool :=
  match line with
  | [] => true
  | c :: _ => c = ';'

/-- Reads lines, the first of which has the given number, on top of settings. -/
def readLines : Nat → Settings → List (List Char) → Settings × List LineFault
  | _, s, [] => (s, [])
  | n, s, l :: ls =>
    let line := trim l
    if isIdle line then readLines (n + 1) s ls
    else match assignmentOf line with
      | .ok (key, value) => readLines (n + 1) (s.set key value) ls
      | .error fault =>
        let r := readLines (n + 1) s ls
        (r.1, ⟨n, fault⟩ :: r.2)

/-- Reads a settings file on top of the default settings: the settings, and the lines at fault. -/
def ofText (text : String) : Settings × List LineFault :=
  readLines 1 {} (lines text.toList)

theorem get_set (s : Settings) (k : Key) (n : Nat) (j : Key) :
    (s.set k n).get j = if j = k then n else s.get j := by
  cases k <;> cases j <;> simp [set, get]

theorem least_le_of_valueOf {key : Key} {value : List Char} {n : Nat}
    (h : valueOf key value = .ok n) : key.least ≤ n := by
  unfold valueOf at h
  split at h
  · cases h
  · cases h
  · split at h
    · cases h
    · cases h
      omega

theorem least_le_of_assignmentOf {line : List Char} {key : Key} {n : Nat}
    (h : assignmentOf line = .ok (key, n)) : key.least ≤ n := by
  unfold assignmentOf at h
  split at h
  · cases h
  simp only at h
  split at h
  · cases h
  next key' _ =>
    rcases hv : valueOf key' (trim _) with _ | n' <;> rw [hv] at h <;> cases h
    exact least_le_of_valueOf hv

theorem least_le_get_readLines {n : Nat} {s : Settings} {ls : List (List Char)}
    (hs : ∀ k : Key, k.least ≤ s.get k) (k : Key) : k.least ≤ (readLines n s ls).1.get k := by
  induction ls generalizing n s with
  | nil => exact hs k
  | cons l ls ih =>
    rw [readLines]
    split
    · exact ih hs
    split
    · next key value hassign =>
      refine ih fun j => ?_
      rw [get_set]
      split
      · next hj => exact hj ▸ least_le_of_assignmentOf hassign
      · exact hs j
    · exact ih hs

/-- Whatever a file says, no setting is smaller than a file can make it. -/
theorem least_le_get_ofText (text : String) (k : Key) : k.least ≤ (ofText text).1.get k :=
  least_le_get_readLines (fun k => by cases k <;> decide) k

end Settings

end LispBridge
