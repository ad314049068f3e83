import StepGraph.Machine.Access
import StepGraph.Machine.Show
import StepGraph.Operator.Evaluate
import StepGraph.Types.Compose

namespace StepGraph.Program

open Exec

def missing {α : Type} (op what : String) : Exec α := notDefined op what

def firstArg : List Value → Exec Value
  | v :: _ => pure v
  | [] => missing "built-in call" "missing argument"

def twoArgs : List Value → Exec (Value × Value)
  | a :: b :: _ => pure (a, b)
  | _ => missing "built-in call" "missing argument"

def typeArg (b : Builtin) : Option Ty → Exec Ty
  | some ty => pure ty
  | none => missing b.name "missing type argument"

def bytesOf (s : String) : List Value := (Utf8.bytes s).map .byte

-- The arguments with the last one replaced by its elements.
def expandSpread (args : List Value) : Exec (List Value) := do
  match args.getLast? with
  | none => return []
  | some last =>
      match last.unwrap with
      | .slice w => return args.dropLast ++ (← heap).sliceElems w
      | .str s => return args.dropLast ++ bytesOf s
      | .nil => return args.dropLast
      | v => notDefined "..." v.kindName

def lengthOf (v : Value) : Exec Nat := do
  match v.unwrap with
  | .str s => return s.utf8ByteSize
  | .slice w => return Heap.sliceLength w
  | .array b => return ((← heap).block b).size
  | .map m => return ((← heap).entries m).length
  | .chan (some c) => return (((← heap).chan? c).map fun ch => ch.queue.length).getD 0
  | .chan none | .nil => return 0
  | w => notDefined "len" w.kindName

def capacityOf (v : Value) : Exec Nat := do
  match v.unwrap with
  | .slice w => return Heap.sliceCapacity w
  | .array b => return ((← heap).block b).size
  | .chan (some c) => return (((← heap).chan? c).map fun ch => ch.capacity).getD 0
  | .chan none | .nil => return 0
  | w => notDefined "cap" w.kindName

-- Copies elements one after the other and tells how many there were room for.
def copyElements (dst src : Value) : Exec Nat := do
  match dst.unwrap with
  | .slice w =>
      let items ← match src.unwrap with
        | .slice s => pure ((← heap).sliceElems s)
        | .str s => pure (bytesOf s)
        | .nil => pure []
        | v => notDefined "copy" v.kindName
      let items := items.take (Heap.sliceLength w)
      items.zipIdx.forM fun (v, i) => do
        let v ← Heap.copy v
        discard (Heap.sliceSet w i v : HeapM Bool)
      return items.length
  | v => notDefined "copy" v.kindName

def clearValue (v : Value) : Exec Unit := do
  match v.unwrap with
  | .map m => Heap.clear m
  | .slice w =>
      ((← heap).sliceElems w).zipIdx.forM fun (v, i) => do
        let zero ← Heap.ofConstant ((← heap).zeroLike v)
        discard (Heap.sliceSet w i zero : HeapM Bool)
  | v => notDefined "clear" v.kindName

def closeValue (v : Value) : Exec Unit := do
  match v.unwrap with
  | .chan (some c) => attempt (Heap.close c)
  | .chan none | .nil => fault .closeOfNil
  | v => notDefined "close" v.kindName

-- A part of a complex number, and whether it is in single precision.
def complexPart (v : Value) : Exec (Float × Bool) :=
  match v.unwrap with
  | .float32 x => pure (x.toFloat, true)
  | .float64 x => pure (x, false)
  | .int n => pure (n.toFloat, false)
  | w => notDefined "complex" w.kindName

def makeComplex (re im : Value) : Exec Value := do
  let (x, single) ← complexPart re
  let (y, single') ← complexPart im
  return Family.complexResult (single || single') ⟨x, y⟩

def partOf (b : Builtin) (v : Value) : Exec Value :=
  let real := b = .real
  match v.unwrap with
  | .complex64 z => pure (.float32 (if real then z.re else z.im).toFloat32)
  | .complex128 z => pure (.float64 (if real then z.re else z.im))
  | .int n => pure (.float64 (if real then n.toFloat else 0))
  | .float64 x => pure (.float64 (if real then x else 0))
  | w => notDefined b.name w.kindName

def isNaN (v : Value) : Bool :=
  match v.unwrap with
  | .float32 x => x.isNaN
  | .float64 x => x.isNaN
  | _ => false

-- The last of the values that beats all before it. A value that is no number beats all.
def extremum (op : BinaryOp) (best : Value) : List Value → Exec Value
  | [] => pure best
  | v :: rest => do
      if isNaN best then return best
      else if isNaN v then extremum op v rest
      else
        match ← ofExcept (evaluateBinary (← heap) op v best) with
        | .bool true => extremum op v rest
        | _ => extremum op best rest

def extremumOf (b : Builtin) (args : List Value) : Exec Value :=
  match args with
  | [] => fault .noOperands
  | first :: rest => extremum (if b = .max then .gt else .lt) first rest

-- The slice that `append` extends, with the name of its declared type.
def appendBase (v : Value) : Exec (Option String × Option Window) :=
  match v with
  | .named t (.slice w) => pure (some t, w)
  | .named t .nil => pure (some t, none)
  | .named _ v => notDefined "append" v.kindName
  | .slice w => pure (none, w)
  | .nil => pure (none, none)
  | v => notDefined "append" v.kindName

def appendValues (p : Program) (ty : Option Ty) (args : List Value) (spread : Bool) :
    Exec Value := do
  match args with
  | [] => notDefined "append" "no arguments"
  | base :: rest =>
      let (name, w) ← appendBase base
      let items ← if spread then expandSpread rest else pure rest
      let elem := (ty.map p.types.resolve).bind Ty.elem?
      let items ← items.mapM fun v => do
        let v ← Heap.copy v
        match elem with
        | some elem => p.coerce v elem
        | none => return v
      return (Value.slice (← Heap.append w items)).wearing name

-- Takes the panic that the call is handling whose end started the present call.
def recover : Exec Value := do
  match (← get).calls.back?.bind (·.deferredBy) with
  | none => return .nil
  | some handler =>
      match (← get).calls[handler]?.bind (·.panic) with
      | none => return .nil
      | some payload =>
          modify fun m =>
            { m with
              calls := m.calls.modify handler fun r => { r with panic := none }
              panicTrace := none }
          return payload

-- Raises a panic of the program.
def raisePanic (payload : Value) : Exec (List Value) :=
  if payload.isNil then fault .nilPanic else throw (.panic payload)

-- A call of a predeclared function.
def callBuiltin (p : Program) (sv : Services) (b : Builtin) (ty : Option Ty)
    (args : List Value) (spread : Bool) : Exec (List Value) := do
  match b with
  | .append => return [← p.appendValues ty args spread]
  | .len => return [.plainInt (← lengthOf (← firstArg args))]
  | .cap => return [.plainInt (← capacityOf (← firstArg args))]
  | .copy =>
      let (dst, src) ← twoArgs args
      return [.plainInt (← copyElements dst src)]
  | .delete =>
      let (map, key) ← twoArgs args
      match map.unwrap with
      | .map m =>
          let k ← ofExcept ((← heap).keyOf key)
          Heap.remove m k
          return []
      | v => notDefined "delete" v.kindName
  | .clear =>
      clearValue (← firstArg args)
      return []
  | .close =>
      closeValue (← firstArg args)
      return []
  | .complex =>
      let (re, im) ← twoArgs args
      return [← makeComplex re im]
  | .real | .imag => return [← partOf b (← firstArg args)]
  | .make => return [← attempt (p.types.make (← typeArg b ty) args)]
  | .new =>
      let zero ← p.zeroValue (← typeArg b ty)
      return [.pointer (some (← Heap.box zero))]
  | .max | .min =>
      let args ← if spread then expandSpread args else pure args
      return [← extremumOf b args]
  | .panic => raisePanic (args.getLast?.getD .nil)
  | .print =>
      print (← sv.showAll args)
      return []
  | .println =>
      printLine (← sv.showSpaced args)
      return []
  | .recover => return [← recover]

end StepGraph.Program
