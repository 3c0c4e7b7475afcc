import LispBridge.Chars.Blank

/-!
Declared host functions.

An entry is the name of a function that scripts may call together with the names of its parameters;
its declaration is the form `(defjs name (a b))` that the interpreter reads.

Memory is taken as unbounded. Parameters that are given by their number alone are all named, however
many they are, also where a machine would break off for want of room for the list of names.
-/

namespace LispBridge.Library

/-- How the parameters of an entry are given. -/
inductive Params
  | named (names : List String)
  /-- By their number alone; the names are then `_0`, `_1` and so on. -/
  | count (n : Nat)
  deriving DecidableEq, Repr

/-- The name that stands for the parameter at an index. -/
def placeholder (i : Nat) : String :=
  "_" ++ toString i

def Params.names : Params → List String
  | .named names => names
  | .count n => (List.range n).map placeholder

structure Entry where
  name : String
  params : List String
  deriving DecidableEq, Repr

namespace Entry

/-- The entry for a name and parameters. -/
def ofParams (name : String) (params : Params) : Entry :=
  ⟨name, params.names⟩

def arity (e : Entry) : Nat :=
  e.params.length

def declaration (e : Entry) : String :=
  "(defjs " ++ e.name ++ " (" ++ " ".intercalate e.params ++ "))"

end Entry

/-- Whether a character can stand in an identifier: an ASCII letter or digit, or an underscore. -/
def isIdentChar (c : Char) : Bool :=
  c.isAlphanum || c = '_'

def isIdent (cs : List Char) : Bool :=
  !cs.isEmpty && cs.all isIdentChar

/-- An entry whose name and parameters are all identifiers. -/
def Entry.WellFormed (e : Entry) : Prop :=
  isIdent e.name.toList = true ∧ ∀ p ∈ e.params, isIdent p.toList = true

instance (e : Entry) : Decidable e.WellFormed :=
  inferInstanceAs (Decidable (_ ∧ _))

end LispBridge.Library
