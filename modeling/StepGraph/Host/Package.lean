import StepGraph.Machine.Basic

namespace StepGraph

-- What a function of the embedder may ask of the machine that calls it: the types of the
-- program, and calls of function values.
structure Services where
  types : TypeTable
  call : Value → List Value → Exec (List Value)

abbrev HostFunction := Services → List Value → Exec (List Value)

inductive HostMember where
  | func (run : HostFunction)
  | const (value : Constant)

-- A package of the embedder. `name` is the name that programs know it by.
structure HostPackage where
  name : String
  members : List (String × HostMember)

-- The packages of the embedder by import path.
abbrev HostRegistry := List (String × HostPackage)

namespace HostRegistry

def member? (r : HostRegistry) (path name : String) : Option HostMember := do
  (← r.lookup path).members.lookup name

def function? (r : HostRegistry) (ref : HostRef) : Option HostFunction :=
  match r.member? ref.path ref.member with
  | some (.func run) => some run
  | _ => none

end HostRegistry

end StepGraph

namespace StepGraph.Host

open Exec

-- Refuses a call with another number of arguments.
def expectArgs (func : String) (args : List Value) (count : Nat) : Exec Unit := do
  if args.length ≠ count then fatal (.arityMismatch func count args.length)

def arg (func : String) (args : List Value) (i : Nat) : Exec Value :=
  match args[i]? with
  | some v => pure v
  | none => fatal (.arityMismatch func (i + 1) args.length)

def strArg (func : String) (args : List Value) (i : Nat) : Exec String := do
  let v ← arg func args i
  match v.str? with
  | some s => return s
  | none => notDefined func v.kindName

def floatArg (func : String) (args : List Value) (i : Nat) : Exec Float := do
  match (← arg func args i).unwrap with
  | .float64 x => return x
  | .float32 x => return x.toFloat
  | .int n => return n.toFloat
  | v => notDefined func v.kindName

-- An integer as a signed word.
def intArg (func : String) (args : List Value) (i : Nat) : Exec Int := do
  let v ← arg func args i
  match v.int? with
  | some n => return n.toInt64
  | none => notDefined func v.kindName

end StepGraph.Host
