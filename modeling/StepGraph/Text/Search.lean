import StepGraph.Text.CharSet

namespace StepGraph.Text

-- What stands before and behind the first place where `part` occurs.
def find? (part : List Char) : List Char → Option (List Char × List Char)
  | [] => if part.isEmpty then some ([], []) else none
  | c :: cs =>
      if part.isPrefixOf (c :: cs) then some ([], (c :: cs).drop part.length)
      else (find? part cs).map fun (before, after) => (c :: before, after)

-- A text cut at the first `limit` occurrences of a separator that is not empty.
def cutAt (sep : List Char) : Nat → List Char → List (List Char)
  | 0, s => [s]
  | n + 1, s =>
      match find? sep s with
      | some (before, after) => before :: cutAt sep n after
      | none => [s]

-- A text cut behind each of its first `limit` characters.
def cutBehind : Nat → List Char → List (List Char)
  | n + 1, c :: cs => [c] :: cutBehind n cs
  | _, s => [s]

-- The pieces between the first `limit` occurrences of a separator. The empty text occurs
-- before every character and at the end.
def pieces (sep : List Char) (limit : Nat) (s : List Char) : List (List Char) :=
  if sep.isEmpty then
    match limit with
    | 0 => [s]
    | n + 1 => [] :: cutBehind n s
  else cutAt sep limit s

-- No text holds more occurrences than this.
def mostOccurrences (s : List Char) : Nat := s.length + 1

def occursIn (part s : String) : Bool := (find? part.toList s.toList).isSome

-- The number of bytes before the first occurrence.
def byteIndex? (part s : String) : Option Nat :=
  (find? part.toList s.toList).map fun (before, _) => (String.ofList before).utf8ByteSize

-- The text between the occurrences of a separator, or every character by itself where the
-- separator is empty.
def split (sep s : String) : List String :=
  if sep.isEmpty then s.toList.map String.singleton
  else (pieces sep.toList (mostOccurrences s.toList) s.toList).map String.ofList

-- The first `limit` occurrences of `old` replaced, or all of them.
def replace (old new s : String) (limit : Option Nat) : String :=
  let limit := limit.getD (mostOccurrences s.toList)
  new.intercalate ((pieces old.toList limit s.toList).map String.ofList)

def trimStart (s : List Char) : List Char := s.dropWhile isBlank

-- The text without the blanks at both ends.
def trim (s : String) : String :=
  String.ofList (trimStart (trimStart s.toList).reverse).reverse

-- Runs of characters that are no blanks, with what the blanks next to each other leave empty.
def cutAtBlanks : List Char → List (List Char)
  | [] => [[]]
  | c :: cs =>
      match cutAtBlanks cs with
      | word :: rest => if isBlank c then [] :: word :: rest else (c :: word) :: rest
      | [] => []

def words (s : String) : List String :=
  ((cutAtBlanks s.toList).filter fun w => !w.isEmpty).map String.ofList

end StepGraph.Text
