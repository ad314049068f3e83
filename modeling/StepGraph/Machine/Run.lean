import StepGraph.Machine.Binding

namespace StepGraph.Program

open Exec

-- Tells an unwinding which step it passes. The innermost step that has a place in the source
-- and the first operands found on the way out stay with a fatal error, and the calls that
-- were active where it arose. A panic leaves its calls with the machine.
@[inline] def annotated {α : Type} (span : Span) (x : Exec α) : Exec α := fun m =>
  match x m with
  | .ok a m => .ok a m
  | .error (.fatal e) m => .error (.fatal (locate e m)) m
  | .error (.panic v) m => .error (.panic v) (keepTrace m)
  | .error u m => .error u m
where
  locate (e : EvalError) (m : Machine) : EvalError :=
    { e with
      span := e.span <|> if span = Span.none then none else some span
      trace := e.trace <|> some m.backtrace
      operands := if e.operands.isEmpty then m.dump else e.operands }
  keepTrace (m : Machine) : Machine :=
    { m with panicTrace := m.panicTrace <|> some m.backtrace }

-- Runs `x` in a frame of its own on the given scope.
@[inline] def inFrame {α : Type} (scope : ScopeId) (x : Exec α) : Exec α := fun m =>
  let caller := m.frame
  match x { m with frame := .start scope } with
  | .ok a m => .ok a { m with frame := caller }
  | .error u m => .error u { m with frame := caller }

-- Keeps a panic with the call whose deferred calls handle it.
def park (record : Nat) (payload : Value) (m : Machine) : Machine :=
  { m with calls := m.calls.modify record fun r => { r with panic := some payload } }

-- Goes on with the panic of a call that none of its deferred calls has recovered.
def releasePanic (record : Nat) : Exec Unit := do
  match (← get).calls[record]?.bind (·.panic) with
  | some payload => throw (.panic payload)
  | none => pure ()

-- Performs deferred calls in turn. A panic of one of them takes the place of the one before.
def performAll (perform : Deferred → Exec (List Value)) (record : Nat) :
    List Deferred → Exec Unit
  | [] => releasePanic record
  | d :: rest => fun m =>
      match perform d { m with deferring := some record } with
      | .ok _ m => performAll perform record rest { m with deferring := none }
      | .error (.panic v) m =>
          performAll perform record rest (park record v { m with deferring := none })
      | .error u m => .error u { m with deferring := none }

-- Runs a body and then the calls that it deferred, the last one first. These also run
-- when the body panics, but not when it fails for good.
def withDeferred (perform : Deferred → Exec (List Value)) (record : Nat) (body : Exec Unit) :
    Exec Unit := fun m =>
  match body m with
  | .ok _ m => performAll perform record m.frame.deferred m
  | .error (.panic v) m => performAll perform record m.frame.deferred (park record v m)
  | .error u m => .error u m

-- Runs a body that leaves no scope open.
def body (run : Array Step → Option StepId → Exec Unit) (steps : Array Step) : Exec Unit :=
  fun m =>
    match run steps (if steps.isEmpty then none else some 0) m with
    | .ok _ m => unwindTo 0 m
    | .error u m =>
        match unwindTo 0 m with
        | .ok _ m => .error u m
        | .error _ m => .error u m

def pushCall (name : String) (span : Span) (deferredBy : Option Nat) : Exec Nat :=
  modifyGet fun m =>
    (m.calls.size, { m with calls := m.calls.push ⟨name, span, none, deferredBy⟩ })

-- Forgets the calls from `record` on, however `x` ends.
@[inline] def endingCall (record : Nat) (x : Exec Unit) : Exec Unit := fun m =>
  match x m with
  | .ok a m => .ok a { m with calls := m.calls.shrink record }
  | .error u m => .error u { m with calls := m.calls.shrink record }

def takeDeferring : Exec (Option Nat) :=
  modifyGet fun m => (m.deferring, { m with deferring := none })

-- A call of a function of the program. `env` is the scope it was made in.
def invoke (p : Program) (run : Array Step → Option StepId → Exec Unit)
    (perform : Deferred → Exec (List Value)) (f : Function) (env : ScopeId)
    (receiver : Option Value) (args : List Value) (spread : Bool) (span : Span) :
    Exec (List Value) := do
  let deferredBy ← takeDeferring
  let scope ← Heap.newScope (some env)
  bindReceiver scope f.recv receiver
  p.bindParams scope f args spread
  p.declareResults scope f.sig
  let record ← pushCall f.name span deferredBy
  inFrame scope do
    endingCall record
      (if f.hasDefer then withDeferred perform record (body run f.steps) else body run f.steps)
    p.collectResults f.sig

-- A call of a function of the embedder.
def callHost (p : Program) (sv : Services) (ref : HostRef) (args : List Value) (spread : Bool) :
    Exec (List Value) := do
  let args ← if spread then expandSpread args else pure args
  match p.hosts.function? ref with
  | some f => f sv args
  | none => fatal (.notCallable "func")

mutual

-- Runs steps from one of them on, until a return or a step without a successor. The number
-- bounds how many steps and calls may follow on each other.
def run (p : Program) : Nat → Array Step → Option StepId → Exec Unit
  | _, _, none => pure ()
  | 0, _, some _ => throw .exhausted
  | n + 1, steps, some id =>
      match steps[id]? with
      | none => fatal (.custom ("step #" ++ toString id ++ " out of range"))
      | some s => do
          match ← annotated s.span (p.step s.op) with
          | .next => run p n steps s.next
          | .goto target => run p n steps target
          | .ret => pure ()
          | .call callee args spread results =>
              annotated s.span do pushResults (← call p n callee args spread s.span) results
              run p n steps s.next
          | .builtin b ty args spread results =>
              annotated s.span do
                let sv := ⟨p.types, fun f xs => call p n f xs false Span.none⟩
                pushResults (← p.callBuiltin sv b ty args spread) results
              run p n steps s.next
          | .defer entry args spread builtin =>
              annotated s.span do
                run p n steps (some entry)
                keepDeferred args spread builtin s.span
              run p n steps s.next

-- A call of a function value. `span` is the place of the call.
def call (p : Program) : Nat → Value → List Value → Bool → Span → Exec (List Value)
  | 0, _, _, _, _ => throw .exhausted
  | n + 1, callee, args, spread, span =>
      let sv : Services := ⟨p.types, fun f xs => call p n f xs false Span.none⟩
      let perform (d : Deferred) : Exec (List Value) :=
        match d.target with
        | .inl f => call p n f d.args d.spread d.span
        | .inr (b, ty) => p.callBuiltin sv b ty d.args d.spread
      let enter (code : CodeRef) (env : ScopeId) (receiver : Option Value) :
          Exec (List Value) := do
        if p.maxDepth ≤ (← get).calls.size then fatal (.stackOverflow p.maxDepth)
        else match p.code[code.id]? with
          | some f => p.invoke (run p n) perform f env receiver args spread span
          | none => fatal (.notCallable "func")
      match callee.unwrap with
      | .func (some (.closure code env)) => enter code env none
      | .method code env receiver => enter code env (some receiver)
      | .func (some (.host ref)) => p.callHost sv ref args spread
      | .func (some (.errorText message)) => do
          if spread then discard (expandSpread args)
          return [.str message]
      | .func none | .nil => fault .nilDereference
      | v => fatal (.notCallable v.kindName)

end

-- What a function of the embedder may ask of a machine that runs the program.
def services (p : Program) (fuel : Nat) : Services :=
  ⟨p.types, fun f args => p.call fuel f args false Span.none⟩

-- Runs the steps of a declaration right in the scope of its package.
def runUnit (p : Program) (fuel : Nat) (f : Function) (scope : ScopeId) : Exec Unit :=
  inFrame scope (body (p.run fuel) f.steps)

-- A panic that nobody recovered, as an error. If its value cannot be shown, its kind is.
def panicError (p : Program) (fuel : Nat) (payload : Value) : Exec EvalError := fun m =>
  match (p.services fuel).show' payload m with
  | .error u m =>
      if u.isFinal then .error u m
      else .ok (traced m payload.kindName) { m with panicTrace := none }
  | .ok text m => .ok (traced m text) { m with panicTrace := none }
where
  traced (m : Machine) (text : String) : EvalError :=
    { EvalError.ofCause (.panicked text) with trace := m.panicTrace }

-- The error that the embedder sees of an unwinding.
def evalError (p : Program) (fuel : Nat) : Unwind → Exec EvalError
  | .fatal e => pure e
  | .panic payload => p.panicError fuel payload
  | .undeclared name => pure (.ofCause (.undefinedVariable name))
  | .exhausted => throw .exhausted

-- A call by the embedder.
def callFunction (p : Program) (fuel : Nat) (callee : Value) (args : List Value) :
    Exec (Except EvalError (List Value)) := fun m =>
  match p.call fuel callee args false Span.none m with
  | .ok values m => .ok (.ok values) m
  | .error u m => (Except.error <$> p.evalError fuel u) m

end StepGraph.Program
