import StepGraph.Error.EvalError
import StepGraph.Graph.Step
import StepGraph.Heap.Dump
import StepGraph.Heap.Pointer
import StepGraph.Heap.Scope
import StepGraph.Types.Table

namespace StepGraph

-- Where a program's output goes: into a text that can be read later, or nowhere.
inductive Printer where
  | buffer (text : String)
  | silent

namespace Printer

def empty : Printer := buffer ""

def write (p : Printer) (s : String) : Printer :=
  match p with
  | buffer text => buffer (text ++ s)
  | silent => silent

def writeLine (p : Printer) (s : String) : Printer := (p.write s).write "\n"

def output : Printer → String
  | buffer text => text
  | silent => ""

def clear : Printer → Printer
  | buffer _ => empty
  | silent => silent

-- The output so far, and a printer without it.
def take (p : Printer) : String × Printer := (p.output, p.clear)

end Printer

-- What ends the work at hand. A panic can be recovered from. A fatal error cannot.
-- `undeclared` tells that a package variable is not there yet, and `exhausted` that the number
-- of steps that a run may take has been used up.
inductive Unwind where
  | panic (payload : Value)
  | fatal (error : EvalError)
  | undeclared (name : String)
  | exhausted

-- Whether nothing in the process goes on: neither the program nor its embedder.
def Unwind.isFinal : Unwind → Bool
  | .fatal e => e.cause = .aborted
  | .exhausted => true
  | .panic _ | .undeclared _ => false

-- A call that waits for the end of the function.
structure Deferred where
  target : Value ⊕ (Builtin × Option Ty)
  args : List Value
  spread : Bool
  span : Span

-- The state of one call. `depth` counts the scopes above the one of the function, which
-- holds parameters and named results. The last operand and the last deferred call come first.
structure Frame where
  operands : List Value
  scope : ScopeId
  funcScope : ScopeId
  depth : Nat
  deferred : List Deferred
  results : Option (List Value)

namespace Frame

def start (scope : ScopeId) : Frame := ⟨[], scope, scope, 0, [], none⟩

end Frame

-- An active call. `panic` is the panic that its deferred calls are handling, and
-- `deferredBy` is the place in the stack of the call whose end started this one.
structure CallRecord where
  name : String
  span : Span
  panic : Option Value
  deferredBy : Option Nat

-- `deferring` is the place of the call that is starting a deferred call, and `panicTrace` is
-- the backtrace of the panic under way. The innermost call comes last.
structure Machine where
  heap : Heap
  frame : Frame
  calls : Array CallRecord
  deferring : Option Nat
  panicTrace : Option (List TraceFrame)
  printer : Printer

abbrev Exec := EStateM Unwind Machine

namespace Machine

def start (printer : Printer) : Machine := ⟨Heap.empty, .start 0, #[], none, none, printer⟩

-- The active calls, the innermost first.
def backtrace (m : Machine) : List TraceFrame :=
  m.calls.toList.reverse.map fun r => ⟨r.name, if r.span = Span.none then none else some r.span⟩

-- The operands of the present call, the top first.
def dump (m : Machine) : List String := m.frame.operands.map m.heap.dump

end Machine

namespace Exec

def heap : Exec Heap := return (← get).heap

def frame : Exec Frame := return (← get).frame

@[inline] def modifyFrame (f : Frame → Frame) : Exec Unit :=
  modify fun ⟨h, fr, cs, d, t, p⟩ => ⟨h, f fr, cs, d, t, p⟩

-- An operation on the heap alone.
@[inline] def onHeap {α : Type} (x : HeapM α) : Exec α := fun ⟨h, fr, cs, d, t, p⟩ =>
  let (a, h) := x h
  .ok a ⟨h, fr, cs, d, t, p⟩

instance : MonadLift HeapM Exec := ⟨onHeap⟩

-- A fault becomes a panic with a runtime error, and anything else ends the run.
def raise {α : Type} : Failure → Exec α
  | .fault f => do throw (.panic (← onHeap (Heap.newError f.message true)))
  | .fatal e => throw (.fatal (.ofCause e))

def fault {α : Type} (f : Fault) : Exec α := raise (.fault f)

def fatal {α : Type} (e : Fatal) : Exec α := raise (.fatal e)

def notDefined {α : Type} (op kind : String) : Exec α := raise (.notDefined op kind)

def ofExcept {α : Type} : Except Failure α → Exec α
  | .ok a => pure a
  | .error e => raise e

def attempt {α : Type} (x : Attempt α) : Exec α := do ofExcept (← onHeap x.run)

def print (s : String) : Exec Unit := modify fun m => { m with printer := m.printer.write s }

def printLine (s : String) : Exec Unit :=
  modify fun m => { m with printer := m.printer.writeLine s }

def push (v : Value) : Exec Unit :=
  modifyFrame fun f => { f with operands := v :: f.operands }

def pushAll (vs : List Value) : Exec Unit :=
  modifyFrame fun f => { f with operands := vs.reverse ++ f.operands }

def pop : Exec Value := do
  match (← frame).operands with
  | v :: rest =>
      modifyFrame fun f => { f with operands := rest }
      return v
  | [] => fatal .operandUnderflow

def top : Exec Value := do
  match (← frame).operands with
  | v :: _ => return v
  | [] => fatal .operandUnderflow

-- The last `n` operands in the order they were pushed, left where they are.
def peekN (n : Nat) : Exec (List Value) := do
  let operands := (← frame).operands
  if operands.length < n then fatal .operandUnderflow
  else return (operands.take n).reverse

-- The same, taken off the stack.
def takeN (n : Nat) : Exec (List Value) := do
  let operands := (← frame).operands
  if operands.length < n then fatal .operandUnderflow
  else
    modifyFrame fun f => { f with operands := operands.drop n }
    return (operands.take n).reverse

def popN : Nat → Exec (List Value)
  | 0 => pure []
  | n + 1 => do
      let v ← pop
      return v :: (← popN n)

-- Values that lie on the stack as `arity` tells, in the order of the source.
def take : Arity → Exec (List Value)
  | .fixed n => takeN n
  | .forwarded => do
      match (← pop).int? with
      | some n => if n.val < 0 then fatal .operandUnderflow else popN n.val.toNat
      | none => fatal .operandUnderflow

-- Leaves the results of a call as they are wanted.
def pushResults (results : List Value) : CallResults → Exec Unit
  | .discard => pure ()
  | .one => push (results.head?.getD .nil)
  | .forward => do
      pushAll results.reverse
      push (.plainInt results.length)

def leaveScopes : Nat → ScopeId → Heap → ScopeId
  | 0, s, _ => s
  | n + 1, s, h =>
      match h.parent? s with
      | some p => leaveScopes n p h
      | none => s

-- Goes back to `depth` scopes above that of the function.
def unwindTo (depth : Nat) : Exec Unit := do
  let f ← frame
  if depth < f.depth then
    let scope := leaveScopes (f.depth - depth) f.scope (← heap)
    modifyFrame fun f => { f with scope, depth }

def currentScope : Exec ScopeId := return (← frame).scope

end Exec

end StepGraph
