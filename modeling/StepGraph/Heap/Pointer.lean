import StepGraph.Heap.Place
import StepGraph.Error.Fault

namespace StepGraph

-- An operation on the heap that can fail. A failure leaves the changes made before it.
abbrev Attempt := ExceptT Failure HeapM

namespace Heap

def fault {α : Type} (f : Fault) : Except Failure α := .error (.fault f)

def fatal {α : Type} (f : Fatal) : Except Failure α := .error (.fatal f)

-- The location that an address stands for.
def placeOf : Address → Option Cell → Option Place
  | a, some (.boxed _) => some (.cell a)
  | _, some (.slot b i) => some (.element b i)
  | _, none => none

-- The value behind a pointer.
def load (h : Heap) (a : Address) : Except Failure Value :=
  match (placeOf a (h.cell? a)).bind h.read? with
  | some v => .ok v
  | none => fatal (.invalidAddress a)

-- The value behind a pointer that may be nil.
def deref (h : Heap) : Option Address → Except Failure Value
  | some a => h.load a
  | none => fault .nilDereference

-- A store through a pointer.
def storeAt (a : Address) (v : Value) : Attempt Unit := do
  let h ← getThe Heap
  match placeOf a (h.cell? a) with
  | some place =>
      if (h.read? place).isSome then monadLift (store place v)
      else throw (.fatal (.invalidAddress a))
  | none => throw (.fatal (.invalidAddress a))

def isSlot (b : BlockId) (i : Nat) : Cell → Bool
  | .slot b' i' => b' == b && i' == i
  | .boxed _ => false

-- The address of an element of a block, which is the same at every use. Its cell stays when no
-- pointer to it is left, where one may as well be made anew for the next pointer. Nothing tells the
-- two apart but the number of an address that is printed.
def slotAddress (b : BlockId) (i : Nat) : HeapM Address := do
  match (← get).cells.findIdx? (isSlot b i) with
  | some n => return n + 1
  | none => newCell (.slot b i)

-- The address of a field or an element of a value that has such.
def partAddress? (v : Value) (i : Nat) : HeapM (Option Address) := do
  match v with
  | .struct s => some <$> slotAddress s.block i
  | .array b => some <$> slotAddress b i
  | .slice (some w) => some <$> slotAddress w.block (w.offset + i)
  | _ => return none

end Heap

end StepGraph
