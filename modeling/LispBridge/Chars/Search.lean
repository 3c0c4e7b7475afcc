/-!
Searching a text for another.
-/

namespace LispBridge.Chars

/-- The text after `needle`, if it starts with it. -/
def afterPrefix? : (needle cs : List Char) → Option (List Char)
  | [], cs => some cs
  | _ :: _, [] => none
  | n :: ns, c :: cs => if n = c then afterPrefix? ns cs else none

/-- Whether `needle` occurs in the text. -/
def contains (needle : List Char) : List Char → Bool
  | [] => needle.isEmpty
  | c :: cs => needle.isPrefixOf (c :: cs) || contains needle cs

/-- The text that follows each occurrence of `needle`, up to the next one, where a search goes on
after the occurrence found. The count bounds the number of characters looked at. -/
def afterEachWithin (needle : List Char) : (count : Nat) → (found : Option (List Char)) →
    List Char → List (List Char)
  | 0, found, _ => (found.map List.reverse).toList
  | _ + 1, found, [] => (found.map List.reverse).toList
  | count + 1, found, c :: cs =>
    match afterPrefix? needle (c :: cs) with
    | some rest => (found.map List.reverse).toList ++ afterEachWithin needle count (some []) rest
    | none => afterEachWithin needle count (found.map (c :: ·)) cs

/-- The text that follows each occurrence of the nonempty `needle`, up to the next one. -/
def afterEach (needle cs : List Char) : List (List Char) :=
  afterEachWithin needle cs.length none cs

end LispBridge.Chars
