import StepGraph.Heap.Place

namespace StepGraph

namespace Window

-- The window from `low` to `high` of another, with room up to `max`.
def reslice? (w : Window) (low high max : Nat) : Option Window :=
  if low ≤ high ∧ high ≤ max ∧ max ≤ w.capacity then
    some ⟨w.block, w.offset + low, high - low, max - low⟩
  else none

end Window

namespace Heap

def sliceLength : Option Window → Nat
  | some w => w.length
  | none => 0

def sliceCapacity : Option Window → Nat
  | some w => w.capacity
  | none => 0

-- A slice with a block of its own that it fills.
def newSlice (values : List Value) : HeapM Value := do
  let b ← newBlock values.toArray
  return .slice (some ⟨b, 0, values.length, values.length⟩)

def reslice? (s : Option Window) (low high max : Nat) : Option (Option Window) :=
  match s with
  | some w => (w.reslice? low high max).map some
  | none => if low ≤ high ∧ high ≤ max ∧ max = 0 then some none else none

def sliceGet? (h : Heap) (s : Option Window) (i : Nat) : Option Value := do
  let w ← s
  if i < w.length then h.element? w.block (w.offset + i) else none

-- A store into an element of a slice. The result tells whether there is such an element.
def sliceSet (s : Option Window) (i : Nat) (v : Value) : HeapM Bool := do
  match s with
  | some w =>
      if i < w.length ∧ ((← get).element? w.block (w.offset + i)).isSome then
        store (.element w.block (w.offset + i)) v
        return true
      else return false
  | none => return false

-- The least capacity, doubled from `capacity`, that holds `needed` elements.
def grow (capacity needed : Nat) : Nat :=
  if h : capacity = 0 ∨ needed ≤ capacity then max capacity needed
  else grow (2 * capacity) needed
termination_by needed - capacity

-- The slice with values after its elements. As long as the capacity allows, they go into
-- the elements behind the window, and every other slice of the block sees them there.
-- Otherwise the new slice has a block of its own.
def append (s : Option Window) (values : List Value) : HeapM (Option Window) := do
  match values with
  | [] => return s
  | first :: _ =>
      let needed := sliceLength s + values.length
      match s with
      | some w =>
          if needed ≤ w.capacity then
            values.zipIdx.forM fun (v, i) => setElement w.block (w.offset + w.length + i) v
            return some { w with length := needed }
          else renew s values first needed
      | none => renew s values first needed
where
  renew (s : Option Window) (values : List Value) (first : Value) (needed : Nat) :
      HeapM (Option Window) := do
    let capacity := grow (max (sliceCapacity s) 1) needed
    let filler ← ofConstant ((← get).zeroLike first)
    let shown := (← get).sliceElems s ++ values
    let b ← newBlock (shown ++ List.replicate (capacity - needed) filler).toArray
    return some ⟨b, 0, needed, capacity⟩

-- Whether two slices show the same elements of the same block.
def sameWindow : Option Window → Option Window → Bool
  | some v, some w => v.block == w.block && v.offset == w.offset && v.length == w.length
  | none, none => true
  | _, _ => false

end Heap

end StepGraph
