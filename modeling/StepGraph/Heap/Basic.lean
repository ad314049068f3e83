import StepGraph.Value.Basic
import StepGraph.Value.MapKey

namespace StepGraph

-- What a pointer points to: a value of its own, or an element of a block.
inductive Cell where
  | boxed (value : Value)
  | slot (block : BlockId) (index : Nat)

-- A variable holds its value until its address is taken. From then on a cell holds it.
inductive Binding where
  | plain (value : Value)
  | shared (address : Address)

structure Scope where
  bindings : List (String × Binding)
  parent : Option ScopeId
  escaped : Bool

structure Entry where
  key : MapKey
  keyValue : Value
  value : Value

-- `zero` is received once the channel is closed and empty.
structure Chan where
  queue : List Value
  capacity : Nat
  closed : Bool
  zero : Value

-- The state of a `range` loop.
inductive Cursor where
  | slice (window : Option Window) (next : Nat)
  | array (block : BlockId) (next : Nat)
  | str (rest : List Char) (offset : Nat)
  | map (id : Option MapId) (keys : List MapKey)
  | int (kind : IntKind) (next stop : Int)
  | chan (id : ChanId)
  | empty

-- Everything that values refer to, each under the number in its place.
-- `errors` counts the error values that exist.
structure Heap where
  blocks : Array (Array Value)
  cells : Array Cell
  maps : Array (List Entry)
  chans : Array Chan
  scopes : Array Scope
  cursors : Array Cursor
  errors : Nat

abbrev HeapM := StateM Heap

namespace Heap

def empty : Heap := ⟨#[], #[], #[], #[], #[], #[], 0⟩

-- A struct or array nests no deeper than there are blocks.
def depth (h : Heap) : Nat := h.blocks.size + 1

-- A recursion through pointers and what lies inside of values never comes this deep without coming
-- back to where it was. The stack of a process holds far less.
def reach (h : Heap) : Nat := pow2 60 + h.blocks.size + h.cells.size

theorem depth_le_reach (h : Heap) : h.depth ≤ h.reach := by
  have hpos := pow2_pos 60
  unfold depth reach
  omega

theorem reach_pos (h : Heap) : 0 < h.reach := Nat.lt_of_lt_of_le (Nat.succ_pos _) h.depth_le_reach

def block (h : Heap) (b : BlockId) : Array Value := h.blocks[b]?.getD #[]

def element? (h : Heap) (b : BlockId) (i : Nat) : Option Value := (h.block b)[i]?

def newBlock (values : Array Value) : HeapM BlockId :=
  modifyGet fun h => (h.blocks.size, { h with blocks := h.blocks.push values })

def setElement (b : BlockId) (i : Nat) (v : Value) : HeapM Unit :=
  modify fun h => { h with blocks := h.blocks.modify b (·.setIfInBounds i v) }

-- A new error value.
def newError (message : String) (runtime : Bool) : HeapM Value :=
  modifyGet fun h => (.error ⟨h.errors, message, runtime⟩, { h with errors := h.errors + 1 })

def newStruct (layout : Layout) (typeName : Option String) (fields : List Value) :
    HeapM Value := do
  return .struct ⟨layout, ← newBlock fields.toArray, typeName⟩

def newArray (elems : List Value) : HeapM Value := do
  return .array (← newBlock elems.toArray)

mutual

-- A constant as a value, with blocks of its own.
def ofConstant : Constant → HeapM Value
  | .nil => pure .nil
  | .bool b => pure (.bool b)
  | .int n => pure (.int n)
  | .float32 x => pure (.float32 x)
  | .float64 x => pure (.float64 x)
  | .complex64 z => pure (.complex64 z)
  | .complex128 z => pure (.complex128 z)
  | .str s => pure (.str s)
  | .nilSlice => pure (.slice none)
  | .nilMap => pure (.map none)
  | .nilPointer => pure (.pointer none)
  | .nilFunc => pure (.func none)
  | .nilChan => pure (.chan none)
  | .array cs => do newArray (← ofConstants cs)
  | .struct layout typeName cs => do newStruct layout typeName (← ofConstants cs)
  | .named t c => return .named t (← ofConstant c)

def ofConstants : List Constant → HeapM (List Value)
  | [] => pure []
  | c :: cs => do
      let v ← ofConstant c
      return v :: (← ofConstants cs)

end

-- The elements that a window shows.
def windowElems (h : Heap) (w : Window) : List Value :=
  ((h.block w.block).extract w.offset (w.offset + w.length)).toList

-- The elements of a slice. The nil slice has none.
def sliceElems (h : Heap) : Option Window → List Value
  | none => []
  | some w => h.windowElems w

-- The entries of a map in the order of their first insertion.
def entries (h : Heap) : Option MapId → List Entry
  | none => []
  | some m => h.maps[m]?.getD []

end Heap

end StepGraph
