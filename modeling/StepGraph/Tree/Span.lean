namespace StepGraph

-- A half-open range of byte offsets in a source text.
structure Span where
  start : Nat
  stop : Nat
  deriving DecidableEq, Inhabited

namespace Span

-- The span of a node that no source text stands behind.
def none : Span := ⟨0, 0⟩

-- Offsets may stand in the wrong order, and the length is then zero.
def length (s : Span) : Nat := s.stop - s.start

def isEmpty (s : Span) : Bool := s.stop ≤ s.start

-- The smallest span that covers both.
def merge (s t : Span) : Span := ⟨min s.start t.start, max s.stop t.stop⟩

def text (s : Span) : String := toString s.start ++ ".." ++ toString s.stop

end Span

end StepGraph
