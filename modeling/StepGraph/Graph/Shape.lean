namespace StepGraph

-- What a range loop is known to run over from the static type of its subject.
inductive RangeKind where
  | indexed | str | map | int | chan | dynamic
  deriving DecidableEq

-- The form of a composite literal: how many values stand in a row, the names of the fields
-- that are given, which elements of a sequence have an index, or the number of map entries.
inductive Shape where
  | positional (count : Nat)
  | fields (names : List String)
  | sequence (keyed : List Bool)
  | map (count : Nat)
  deriving DecidableEq

namespace Shape

-- The number of values that the literal is made from.
def operands : Shape → Nat
  | positional n => n
  | fields names => names.length
  | sequence keyed => keyed.length + keyed.count true
  | map n => 2 * n

end Shape

end StepGraph
