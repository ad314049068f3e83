import StepGraph.Number.Power

namespace StepGraph

-- Strings with numbers, in two tables: from a string to its number, and from a number to its
-- string. A string keeps its number, and the empty string has the number zero.
structure Symbols where
  numbers : List (String × Nat)
  names : Array String

namespace Symbols

def empty : Symbols := ⟨[("", 0)], #[""]⟩

def size (s : Symbols) : Nat := s.names.size

-- The number of a string that has one.
def number? (s : Symbols) (name : String) : Option Nat := s.numbers.lookup name

-- A number for a string that has none: the next one, written to both tables.
def add (s : Symbols) (name : String) : Nat × Symbols :=
  (s.size, ⟨(name, s.size) :: s.numbers, s.names.push name⟩)

-- The number of a string, which is a new one for a new string.
def intern (s : Symbols) (name : String) : Nat × Symbols :=
  match s.number? name with
  | some n => (n, s)
  | none => s.add name

-- A number has 32 bits.
def capacity : Nat := pow2 32

-- The same with the bound of the numbers: no number is left for a new string when all of them
-- are given out, and the tables stay as they are.
def intern? (s : Symbols) (name : String) : Option (Nat × Symbols) :=
  if (s.number? name).isNone && capacity ≤ s.size then none else some (s.intern name)

def name? (s : Symbols) (n : Nat) : Option String := s.names[n]?

-- The string with a number, or a mark for a number that was never given out.
def text (s : Symbols) (n : Nat) : String := (s.name? n).getD "<unknown>"

end Symbols

end StepGraph
