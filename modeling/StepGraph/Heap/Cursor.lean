import StepGraph.Graph.Shape
import StepGraph.Heap.Chan
import StepGraph.Heap.Map
import StepGraph.Heap.Slice
import StepGraph.Number.Binary

namespace StepGraph

namespace Heap

def newCursor (c : Cursor) : HeapM CursorId :=
  modifyGet fun h => (h.cursors.size, { h with cursors := h.cursors.push c })

def setCursor (id : CursorId) (c : Cursor) : HeapM Unit :=
  modify fun h => { h with cursors := h.cursors.setIfInBounds id c }

def notRangeable (v : Value) : Failure := .notDefined "range" v.kindName

-- What a loop over a value without a declared type runs over. A slice keeps the length it has,
-- an array is copied unless it stands behind a pointer, and a map lends its present keys.
def cursorOf (kind : RangeKind) : Value → Attempt Cursor
  | .slice w => return .slice w 0
  | .array b => do
      match ← (monadLift (copy (.array b)) : Attempt Value) with
      | .array c => return .array c 0
      | v => throw (notRangeable v)
  | .pointer (some a) => do
      match (← getThe Heap).load a with
      | .ok (.array b) => return .array b 0
      | .ok v => throw (notRangeable v)
      | .error e => throw e
  | .pointer none => throw (.fault .nilDereference)
  | .str s => return .str s.toList 0
  | .map m => return .map m ((← getThe Heap).keys m)
  | .int n => return .int n.kind 0 n.val
  | .float64 x =>
      if kind = .int ∧ Binary.isWhole x then return .int .int 0 (Binary.integerPart x)
      else throw (notRangeable (.float64 x))
  | .chan (some c) => return .chan c
  | .chan none => throw (.fatal .deadlock)
  | .nil => return .empty
  | v => throw (notRangeable v)

def startCursor (kind : RangeKind) (v : Value) : Attempt Value := do
  return .cursor (← monadLift (newCursor (← cursorOf kind v.unwrap)))

-- The entry of the first of the keys that is still in the map, and the keys after it.
def nextEntry (h : Heap) (m : Option MapId) : List MapKey → Option Entry × List MapKey
  | [] => (none, [])
  | k :: ks =>
      match h.findKey? m k with
      | some e => (some e, ks)
      | none => nextEntry h m ks

-- The next pair of a loop, or nothing at the end of the loop, and the cursor after it.
-- The second part is nil where the loop has one variable only.
def step (h : Heap) : Cursor → Option (Value × Value) × Cursor
  | .slice w i =>
      if i < sliceLength w then ((h.sliceGet? w i).map (.plainInt i, ·), .slice w (i + 1))
      else (none, .slice w i)
  | .array b i =>
      if i < (h.block b).size then ((h.element? b i).map (.plainInt i, ·), .array b (i + 1))
      else (none, .array b i)
  | .str (c :: cs) offset => (some (.plainInt offset, .rune c), .str cs (offset + c.utf8Size))
  | .map m ks =>
      let (e, rest) := h.nextEntry m ks
      (e.map fun e => (e.keyValue, e.value), .map m rest)
  | .int k next stop =>
      if next < stop then (some (.intOf k next, .nil), .int k (next + 1) stop)
      else (none, .int k next stop)
  | cursor => (none, cursor)

-- The next pair of a loop, after which the cursor has moved on.
def advance (id : CursorId) : Attempt (Option (Value × Value)) := do
  let h ← getThe Heap
  match h.cursors[id]? with
  | some (.chan c) =>
      match ← (monadLift (tryReceive c) : Attempt Received) with
      | .value v => return some (v, .nil)
      | .closed _ => return none
      | .empty => throw (.fatal .deadlock)
  | some cursor =>
      let (pair, cursor') := h.step cursor
      monadLift (setCursor id cursor')
      return pair
  | none => return none

end Heap

end StepGraph
