import StepGraph.Heap.Basic

namespace StepGraph.Heap

-- Whether a value under a declared type is copied with it.
def copiesInside : Value → Bool
  | .array _ | .named .. => true
  | _ => false

-- One level of a copy. `inBlock` copies what stands in the block.
def copyWith (inBlock : Value → HeapM Value) : Value → HeapM Value
  | .struct s => do
      newStruct s.layout s.typeName (← ((← get).block s.block).toList.mapM inBlock)
  | .array b => do newArray (← ((← get).block b).toList.mapM inBlock)
  | .named t v => do
      if copiesInside v then return .named t (← copyWith inBlock v) else return .named t v
  | v => pure v

def copyUpTo : Nat → Value → HeapM Value
  | 0, v => pure v
  | n + 1, v => copyWith (copyUpTo n) v

-- The value with blocks of its own for its structs and arrays. What lies behind slices, maps,
-- pointers, functions and channels stays shared.
def copy (v : Value) : HeapM Value := do copyUpTo (← get).depth v

-- One level of the zero value of a value's own type.
def zeroLikeWith (h : Heap) (inBlock : Value → Constant) : Value → Constant
  | .bool _ => .bool false
  | .int n => .int (.ofInt n.kind 0)
  | .float32 _ => .float32 0
  | .float64 _ => .float64 0
  | .complex64 _ => .complex64 .zero
  | .complex128 _ => .complex128 .zero
  | .str _ => .str ""
  | .slice _ => .nilSlice
  | .array b => .array ((h.block b).toList.map inBlock)
  | .map _ => .nilMap
  | .pointer _ => .nilPointer
  | .struct s => .struct s.layout s.typeName ((h.block s.block).toList.map inBlock)
  | .named t v => .named t (zeroLikeWith h inBlock v)
  | .func _ | .method .. => .nilFunc
  | .chan _ => .nilChan
  | .nil | .package _ | .error _ | .cursor _ => .nil

def zeroLikeUpTo (h : Heap) : Nat → Value → Constant
  | 0, _ => .nil
  | n + 1, v => zeroLikeWith h (zeroLikeUpTo h n) v

-- The zero value of the type that a value has at run time.
def zeroLike (h : Heap) (v : Value) : Constant := zeroLikeUpTo h h.depth v

end StepGraph.Heap
