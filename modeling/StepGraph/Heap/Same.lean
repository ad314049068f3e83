import StepGraph.Heap.Basic

namespace StepGraph.Heap

def allSame (same : Value → Value → Bool) : List Value → List Value → Bool
  | x :: xs, y :: ys => same x y && allSame same xs ys
  | [], [] => true
  | _, _ => false

-- One level of sameness: `inBlock` compares what stands in blocks and maps.
def sameWith (inBlock : Value → Value → Bool) (h : Heap) : Value → Value → Bool
  | .nil, .nil => true
  | .bool a, .bool b => a == b
  | .int a, .int b => a == b
  | .float32 a, .float32 b => a == b
  | .float64 a, .float64 b => a == b
  | .complex64 a, .complex64 b | .complex128 a, .complex128 b => a.same b
  | .str a, .str b => a == b
  | .slice a, .slice b =>
      a.isNone == b.isNone && allSame inBlock (h.sliceElems a) (h.sliceElems b)
  | .array a, .array b => allSame inBlock (h.block a).toList (h.block b).toList
  | .map a, .map b =>
      a == b || allSame inBlock (flat (h.entries a)) (flat (h.entries b))
  | .pointer a, .pointer b => a == b
  | .struct a, .struct b =>
      a.typeName == b.typeName && allSame inBlock (h.block a.block).toList (h.block b.block).toList
  | .named s v, .named t w => s == t && sameWith inBlock h v w
  | .func a, .func b => a == b
  | .method a _ _, .method b _ _ => a == b
  | .chan a, .chan b => a == b
  | .package a, .package b => a == b
  | .error a, .error b => a.id == b.id || a.message == b.message
  | _, _ => false
where
  flat (es : List Entry) : List Value := es.flatMap fun e => [e.keyValue, e.value]

def sameUpTo (h : Heap) : Nat → Value → Value → Bool
  | 0, _, _ => false
  | n + 1, v, w => sameWith (sameUpTo h n) h v w

-- Whether two values have the same type and the same contents. Unlike the language's own
-- equality it answers for any two values, and errors are the same when their messages are.
def same (h : Heap) (v w : Value) : Bool := sameUpTo h (h.depth + h.maps.size) v w

end StepGraph.Heap
