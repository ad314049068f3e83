import StepGraph.Compile.Names
import StepGraph.Heap.Cursor
import StepGraph.Machine.Builtins

namespace StepGraph.Program

open Exec

-- What a step leads to: the usual successor, another step, the end of the function, a call,
-- or the steps that evaluate a deferred call.
inductive Next where
  | next
  | goto (target : Option StepId)
  | ret
  | call (callee : Value) (args : List Value) (spread : Bool) (results : CallResults)
  | builtin (b : Builtin) (ty : Option Ty) (args : List Value) (spread : Bool)
      (results : CallResults)
  | defer (entry : StepId) (args : Arity) (spread : Bool) (builtin : Option (Builtin × Option Ty))

def mismatch {α : Type} (want got : Nat) : Exec α :=
  fatal (.custom ("assignment mismatch: " ++ toString want ++ " variables but " ++ toString got ++
    " values"))

-- Binds a value in the present scope. The blank name binds nothing.
def declareValue (p : Program) (ty : Option Ty) (name : String) (v : Value) : Exec Unit := do
  if name = Names.blank then return
  let v ← Heap.copy v
  let v ← match ty with
    | some ty => p.coerce v ty
    | none => pure v
  Heap.declare (← currentScope) name v

def declareZero (p : Program) (ty : Ty) (name : String) : Exec Unit := do
  if name = Names.blank then return
  Heap.declare (← currentScope) name (← p.zeroValue ty)

-- Takes the operands of targets off the stack, those of the last target first.
def takeOperands : List Target → Exec (List (List Value))
  | [] => pure []
  | t :: rest => do
      let operands ← takeOperands rest
      return (← takeN t.operands) :: operands

def storeAll (p : Program) : List Target → List (List Value) → List Value → Exec Unit
  | t :: targets, ops :: operands, v :: values => do
      p.storeTarget t ops (← Heap.copy v)
      p.storeAll targets operands values
  | _, _, _ => pure ()

def addressOf (p : Program) (kind : AddressKind) : Exec Address := do
  match kind with
  | .var name => p.addressOfVariable name
  | .field name => addressOfField (← pop) name
  | .index =>
      let index ← pop
      addressOfElement (← pop) index
  | .value => Heap.box (← pop)

-- Copies variables of the present scope to the scope around it.
def carryOut (names : List String) : Exec Unit := do
  let scope ← currentScope
  match (← heap).parent? scope with
  | none => pure ()
  | some parent =>
      names.forM fun x => do
        match (← heap).local? scope x with
        | some v => Heap.declare parent x v
        | none => pure ()

def popIf (present : Bool) : Exec (Option Value) :=
  if present then return some (← pop) else return none

def typeAssert (p : Program) (ty : Ty) (commaOk : Bool) : Exec Unit := do
  let v ← pop
  let ok ← ofExcept (p.types.holdsType (← heap) v ty)
  if commaOk then
    push (← if ok then pure v else p.zeroValue ty)
    push (.bool ok)
  else if ok then push v
  else fault (.badAssertion ((← heap).typeName v) ty.text)

def rangeNext (p : Program) (cursor : String) (value : Bool) (exit : Option StepId) :
    Exec Next := do
  match (← heap).lookup (← currentScope) cursor with
  | some (.cursor id) =>
      match ← attempt (Heap.advance id) with
      | some (key, item) =>
          push key
          if value then push item
          return .next
      | none => return .goto exit
  | _ => p.undefined cursor

def branch (v : Value) (other : Option StepId) : Exec Next :=
  match v.bool? with
  | some true => pure .next
  | some false => pure (.goto other)
  | none => notDefined "if" v.kindName

def shortCircuit (stop : Bool) (other : Option StepId) : Exec Next := do
  let v ← top
  match v.bool? with
  | none => notDefined "&&" v.kindName
  | some b =>
      if b = stop then return .goto other
      discard pop
      return .next

def unary (op : UnaryOp) (v : Value) : Exec Value := do
  match op with
  | .deref => deref v
  | .recv => return (← receive v).1
  | .addrOf => return .pointer (some (← Heap.box v))
  | _ => ofExcept (evaluateUnary op v)

-- Steps that do their work on the operands and go on to the next step.
def work (p : Program) (op : StepOp) : Exec Unit := do
  match op with
  | .const c => push (← Heap.ofConstant c)
  | .load name =>
      match (← heap).lookup (← currentScope) name with
      | some v => push v
      | none => p.undefined name
  | .declare names ty arity =>
      let values ← take arity
      if values.length ≠ names.length then mismatch names.length values.length
      (names.zip values).forM fun (x, v) => p.declareValue ty x v
  | .declareZero names ty => names.forM (p.declareZero ty)
  | .assign targets arity =>
      let values ← take arity
      if values.length ≠ targets.length then mismatch targets.length values.length
      p.storeAll targets (← takeOperands targets) values
  | .loadTarget target ty =>
      push (← p.loadTarget target (← peekN target.operands) ty)
  | .binary op resolved =>
      let r ← pop
      let l ← pop
      match resolved with
      | some family => push (← ofExcept (family.apply op l r))
      | none => push (← ofExcept (evaluateBinary (← heap) op l r))
  | .unary op => push (← unary op (← pop))
  | .addressOf kind => push (.pointer (some (← p.addressOf kind)))
  | .deref => push (← deref (← pop))
  | .jump depth => unwindTo depth
  | .pushScope =>
      let scope ← Heap.newScope (some (← currentScope))
      modifyFrame fun f => { f with scope, depth := f.depth + 1 }
  | .popScope => unwindTo ((← frame).depth - 1)
  | .carryOut names => carryOut names
  | .index commaOk elem =>
      let index ← pop
      let (v, ok) ← p.index (← pop) index elem
      push v
      if commaOk then push (.bool ok)
  | .slice low high max =>
      let max ← popIf max
      let high ← popIf high
      let low ← popIf low
      let base ← pop
      let low ← bound? low
      let high ← bound? high
      push (← slice ⟨low, high, ← bound? max⟩ base)
  | .select name => push (← p.select (← pop) name)
  | .compose ty shape =>
      let values ← takeN shape.operands
      push (← attempt (p.types.compose ty shape values))
  | .closure code =>
      let scope ← currentScope
      Heap.markEscaped scope
      push (.func (some (.closure code scope)))
  | .typeAssert ty commaOk => p.typeAssert ty commaOk
  | .typeTest ty => push (.bool (← ofExcept (p.types.holdsType (← heap) (← pop) ty)))
  | .convert ty => push (← attempt (p.types.convert (← pop) ty))
  | .send =>
      let v ← pop
      send (← pop) v
  | .recv commaOk =>
      let (v, ok) ← receive (← pop)
      push v
      if commaOk then push (.bool ok)
  | .rangeInit kind cursor =>
      let c ← attempt (Heap.startCursor kind (← pop))
      Heap.declare (← currentScope) cursor c
  | .pop => discard pop
  | _ => pure ()

-- What a step does before anything is called, and where it leads.
def step (p : Program) (op : StepOp) : Exec Next := do
  match op with
  | .branch other => branch (← pop) other
  | .shortCircuit stop other => shortCircuit stop other
  | .call args spread results =>
      let callee ← pop
      return .call callee (← take args) spread results
  | .callBuiltin b ty args spread results => return .builtin b ty (← take args) spread results
  | .ret arity =>
      if arity ≠ .fixed 0 then
        let values ← take arity
        modifyFrame fun f => { f with results := some values }
      return .ret
  | .defer entry args spread builtin => return .defer entry args spread builtin
  | .rangeNext cursor value exit => p.rangeNext cursor value exit
  | op =>
      p.work op
      return .next

-- Keeps a call whose operands are on the stack for the end of the function.
def keepDeferred (args : Arity) (spread : Bool) (builtin : Option (Builtin × Option Ty))
    (span : Span) : Exec Unit := do
  let target ← match builtin with
    | some b => pure (.inr b)
    | none => pure (.inl (← pop))
  let values ← (← take args).mapM fun v => (Heap.copy v : HeapM Value)
  modifyFrame fun f => { f with deferred := ⟨target, values, spread, span⟩ :: f.deferred }

end StepGraph.Program
