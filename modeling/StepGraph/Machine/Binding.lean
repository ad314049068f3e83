import StepGraph.Machine.Step

namespace StepGraph.Program

open Exec

def bindName (scope : ScopeId) (name : Option String) (v : Value) : Exec Unit :=
  match name with
  | some x => if x = Names.blank then pure () else Heap.declare scope x v
  | none => pure ()

-- The receiver in the form that the method asks for. A pointer is made to a value that
-- has none, and what a pointer points to is copied.
def receiverValue (recv : Receiver) (v : Value) : Exec Value := do
  if recv.pointer then
    match v.unwrap with
    | .pointer _ => return v
    | _ => return .pointer (some (← Heap.box v))
  else
    match v with
    | .pointer a =>
        let target ← ofExcept ((← heap).deref a)
        Heap.copy target
    | _ => Heap.copy v

def bindReceiver (scope : ScopeId) (recv : Option Receiver) (v : Option Value) : Exec Unit := do
  match recv, v with
  | some recv, some v => bindName scope recv.name (← receiverValue recv v)
  | _, _ => pure ()

-- An argument as the function gets it.
def passed (p : Program) (ty : Ty) (v : Value) : Exec Value := do
  let v ← Heap.copy v
  p.coerce v ty

-- The slice of the arguments behind the fixed ones. Nothing is copied with `f(xs...)`.
def variadicSlice (p : Program) (ty : Ty) (args : List Value) (spread : Bool) : Exec Value := do
  if spread then return args.headD (.slice none)
  else if args.isEmpty then return .slice none
  else
    let items ← args.mapM (p.passed ty)
    Heap.newSlice items

-- The number of parameters that take one argument each.
def fixedParams (sig : Signature) : Nat :=
  if sig.variadic then sig.params.length - 1 else sig.params.length

def acceptsArgs (sig : Signature) (args : Nat) (spread : Bool) : Bool :=
  if sig.variadic && !spread then fixedParams sig ≤ args else args = sig.params.length

def bindParams (p : Program) (scope : ScopeId) (f : Function) (args : List Value)
    (spread : Bool) : Exec Unit := do
  let sig := f.sig
  if !acceptsArgs sig args.length spread then
    fatal (.arityMismatch f.name sig.params.length args.length)
  let fixed := fixedParams sig
  ((sig.params.take fixed).zip args).forM fun (param, v) => do
    bindName scope param.name (← p.passed param.ty v)
  if sig.variadic then
    match sig.params.getLast? with
    | some param =>
        bindName scope param.name (← p.variadicSlice param.ty (args.drop fixed) spread)
    | none => pure ()

-- Results with names start out as zero values.
def declareResults (p : Program) (scope : ScopeId) (sig : Signature) : Exec Unit := do
  if sig.hasNamedResults then
    sig.results.forM fun r => do
      match r.name with
      | some x => Heap.declare scope x (← p.zeroValue r.ty)
      | none => pure ()

-- The value of a result at the end of the function, where results have names.
def namedResult (p : Program) (scope : ScopeId) (r : Param) : Exec Value := do
  match r.name.bind ((← heap).local? scope) with
  | some v => return v
  | none => p.zeroValue r.ty

-- What a call that has ended gives, in the types of the results.
def collectResults (p : Program) (sig : Signature) : Exec (List Value) := do
  let fr ← frame
  let values ←
    if sig.hasNamedResults then sig.results.mapM (p.namedResult fr.funcScope)
    else match fr.results with
      | some values => pure values
      | none => sig.results.mapM fun r => p.zeroValue r.ty
  (values.zip sig.results).mapM fun (v, r) => p.coerce v r.ty

end StepGraph.Program
