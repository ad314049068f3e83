import StepGraph.Heap.Pointer

namespace StepGraph

-- What a channel has for a receiver.
inductive Received where
  | value (v : Value)
  | closed (zero : Value)
  | empty

namespace Chan

-- A send that would wait can never go on, because nothing else runs.
def send (c : Chan) (v : Value) : Except Failure Chan :=
  if c.closed then .error (.fault .sendOnClosed)
  else if c.queue.length < c.capacity then .ok { c with queue := c.queue ++ [v] }
  else .error (.fatal .deadlock)

def take (c : Chan) : Received × Chan :=
  match c.queue with
  | v :: rest => (.value v, { c with queue := rest })
  | [] => (if c.closed then .closed c.zero else .empty, c)

def close (c : Chan) : Except Failure Chan :=
  if c.closed then .error (.fault .closeOfClosed) else .ok { c with closed := true }

end Chan

namespace Heap

def newChan (capacity : Nat) (zero : Value) : HeapM ChanId :=
  modifyGet fun h =>
    (h.chans.size, { h with chans := h.chans.push ⟨[], capacity, false, zero⟩ })

def chan? (h : Heap) (c : ChanId) : Option Chan := h.chans[c]?

def setChan (id : ChanId) (c : Chan) : HeapM Unit :=
  modify fun h => { h with chans := h.chans.setIfInBounds id c }

-- The result of an operation on one channel, which takes the channel's place.
def updateChan (id : ChanId) (f : Chan → Except Failure Chan) : Attempt Unit := do
  match (← getThe Heap).chan? id with
  | some c => do monadLift (setChan id (← liftExcept (f c)))
  | none => throw (.fatal .deadlock)
where
  liftExcept (r : Except Failure Chan) : Attempt Chan := ExceptT.mk (pure r)

def send (id : ChanId) (v : Value) : Attempt Unit := updateChan id (·.send v)

def close (id : ChanId) : Attempt Unit := updateChan id (·.close)

def tryReceive (id : ChanId) : HeapM Received := do
  match (← get).chan? id with
  | some c =>
      let (r, c') := c.take
      setChan id c'
      return r
  | none => return .empty

-- The next value with `true`, or the zero value with `false` once the channel is closed and
-- empty. A receive that would wait can never go on.
def receive (id : ChanId) : Attempt (Value × Bool) := do
  match ← (monadLift (tryReceive id) : Attempt Received) with
  | .value v => return (v, true)
  | .closed zero => return (zero, false)
  | .empty => throw (.fatal .deadlock)

end Heap

end StepGraph
