import StepGraph.Graph.Builtin
import StepGraph.Graph.Shape
import StepGraph.Operator.Table
import StepGraph.Tree.Package
import StepGraph.Value.Basic

namespace StepGraph

abbrev StepId := Nat

-- How values lie on the operand stack: so many of them, the last on top, or as a call with
-- several results leaves them, with their number on top and the first result below it.
inductive Arity where
  | fixed (count : Nat)
  | forwarded
  deriving DecidableEq

-- What a call leaves on the stack: nothing, its first result, or all of them.
inductive CallResults where
  | discard | one | forward
  deriving DecidableEq

-- The destination of an assignment. What it needs from the stack lies below the values.
inductive Target where
  | var (name : String)
  | discard
  | index
  | field (name : String)
  | deref
  deriving DecidableEq

namespace Target

-- The number of operands: base and key, the base of a field, or a pointer.
def operands : Target → Nat
  | var _ | discard => 0
  | field _ | deref => 1
  | index => 2

end Target

-- What an address is taken of. A value that is no variable gets one of its own.
inductive AddressKind where
  | var (name : String)
  | field (name : String)
  | index
  | value
  deriving DecidableEq

inductive StepOp where
  | nop
  | const (value : Constant)
  | load (name : String)
  | declare (names : List String) (ty : Option Ty) (arity : Arity)
  | declareZero (names : List String) (ty : Ty)
  | assign (targets : List Target) (arity : Arity)
  -- Pushes what a target holds and leaves its operands. `ty` is the target's static type.
  | loadTarget (target : Target) (ty : Option Ty)
  | binary (op : BinaryOp) (resolved : Option Family)
  | unary (op : UnaryOp)
  | addressOf (kind : AddressKind)
  | deref
  -- Takes a bool and goes to `other` if it is false.
  | branch (other : Option StepId)
  -- Goes to `other` with the bool on top if it is `stop`, and takes it off otherwise.
  | shortCircuit (stop : Bool) (other : Option StepId)
  | jump (depth : Nat)
  | pushScope
  | popScope
  -- Copies the variables of one round of a loop to the scope around it.
  | carryOut (names : List String)
  | call (args : Arity) (spread : Bool) (results : CallResults)
  | callBuiltin (builtin : Builtin) (ty : Option Ty) (args : Arity) (spread : Bool)
      (results : CallResults)
  | ret (arity : Arity)
  -- Runs the steps from `entry` on, which leave the operands of a call, and keeps the call.
  | defer (entry : StepId) (args : Arity) (spread : Bool)
      (builtin : Option (Builtin × Option Ty))
  | index (commaOk : Bool) (elem : Option Ty)
  | slice (low high max : Bool)
  | select (name : String)
  | compose (ty : Ty) (shape : Shape)
  | closure (code : CodeRef)
  | typeAssert (ty : Ty) (commaOk : Bool)
  | typeTest (ty : Ty)
  | convert (ty : Ty)
  | send
  | recv (commaOk : Bool)
  | rangeInit (kind : RangeKind) (cursor : String)
  -- Pushes the next key, and the value if `value` holds, or goes to `exit` at the end.
  | rangeNext (cursor : String) (value : Bool) (exit : Option StepId)
  | pop

-- A step and the one after it. Without one the run of the steps ends.
structure Step where
  op : StepOp
  next : Option StepId
  span : Span

-- A successor of a step: the usual one, or the other one of a step that has two.
inductive Edge where
  | next | other
  deriving DecidableEq

structure Slot where
  step : StepId
  edge : Edge
  deriving DecidableEq

namespace StepOp

-- The step with its other successor set, if it can have one and has none yet.
def withOther? (op : StepOp) (target : StepId) : Option StepOp :=
  match op with
  | branch none => some (branch (some target))
  | shortCircuit stop none => some (shortCircuit stop (some target))
  | rangeNext c v none => some (rangeNext c v (some target))
  | _ => none

end StepOp

namespace Step

-- The step with a successor set, if the successor is still open.
def link? (s : Step) (edge : Edge) (target : StepId) : Option Step :=
  match edge with
  | .next => if s.next.isNone then some { s with next := some target } else none
  | .other => (s.op.withOther? target).map fun op => { s with op }

end Step

-- The steps of a function. A run starts at the first.
structure Function where
  name : String
  sig : Signature
  recv : Option Receiver
  literal : Bool
  hasDefer : Bool
  steps : Array Step

namespace Function

inductive Flag where
  | hasDefer | namedResults | variadic | method | literal

def Flag.label : Flag → String
  | hasDefer => "HAS_DEFER"
  | namedResults => "NAMED_RESULTS"
  | variadic => "VARIADIC"
  | method => "METHOD"
  | literal => "LITERAL"

def flags (f : Function) : List Flag :=
  (if f.hasDefer then [.hasDefer] else []) ++
  (if f.sig.hasNamedResults then [.namedResults] else []) ++
  (if f.sig.variadic then [.variadic] else []) ++
  (if f.recv.isSome then [.method] else []) ++
  (if f.literal then [.literal] else [])

end Function

end StepGraph
