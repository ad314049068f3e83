import StepGraph.Heap.Map
import StepGraph.Heap.Slice
import StepGraph.Heap.Chan
import StepGraph.Host.Package
import StepGraph.Machine.Basic
import StepGraph.Text.Utf8
import StepGraph.Types.Convert
import StepGraph.Types.Member

namespace StepGraph

-- Everything about a program that a run does not change: its functions and types, the packages
-- of the embedder, and the number of calls that may be active at a time.
-- While a package is initialized its variables come into being one after the other.
structure Program where
  code : Array Function
  types : TypeTable
  hosts : HostRegistry
  maxDepth : Nat
  initializing : Bool

namespace Program

open Exec

def undefined {α : Type} (p : Program) (name : String) : Exec α :=
  if p.initializing then throw (.undeclared name) else fatal (.undefinedVariable name)

-- A member of an imported package.
def member? (p : Program) (ref : PackageRef) (name : String) : Exec (Option Value) := do
  match ref.scope with
  | some scope => return (← heap).lookup scope name
  | none =>
      match p.hosts.member? ref.path name with
      | some (.const c) => return some (← Heap.ofConstant c)
      | some (.func _) => return some (.func (some (.host ⟨ref.path, ref.name, name⟩)))
      | none => return none

def zeroValue (p : Program) (ty : Ty) : Exec Value := p.types.zeroValue ty

def coerce (p : Program) (v : Value) (ty : Ty) : Exec Value := p.types.coerce v ty

-- The method of a value. A pointer binds its method to what it points to.
def selectMethod (p : Program) (name : String) : Nat → Value → Exec Value
  | 0, v => noMember v
  | n + 1, v => do
      match v with
      | .pointer a =>
          let target ← ofExcept ((← heap).deref a)
          match target with
          | .pointer _ => again n target
          | _ => found v (← attempt (p.types.method target (some v) name))
      | _ => found v (← attempt (p.types.method v none name))
where
  noMember (v : Value) : Exec Value := do
    fatal (.noFieldOrMethod name ((← heap).typeName v))
  found (v : Value) : Option Value → Exec Value
    | some m => pure m
    | none => noMember v
  -- A selection from a pointer behind a pointer starts anew.
  again (n : Nat) (v : Value) : Exec Value := do
    match v with
    | .pointer none => fault .nilDereference
    | _ =>
        match ← ofExcept ((← heap).locate v name) with
        | some field => return (← heap).fieldValue field
        | none => p.selectMethod name n v

-- `base.name`: a member of a package, a field, or a method with its receiver bound.
def select (p : Program) (base : Value) (name : String) : Exec Value := do
  match base with
  | .package ref =>
      match ← p.member? ref name with
      | some v => return v
      | none => fatal (.unknownMember ref.name name)
  | .nil | .pointer none => fault .nilDereference
  | _ =>
      match base with
      | .error e =>
          if name = TypeTable.errorMethod then
            return .func (some (.errorText e.message))
      | _ => pure ()
      match ← ofExcept ((← heap).locate base name) with
      | some field => return (← heap).fieldValue field
      | none => p.selectMethod name (← heap).reach base

def deref (v : Value) : Exec Value := do
  match v.unwrap with
  | .pointer a => ofExcept ((← heap).deref a)
  | .nil => fault .nilDereference
  | w => notDefined "*" w.kindName

def receive (v : Value) : Exec (Value × Bool) := do
  match v.unwrap with
  | .chan (some c) => attempt (Heap.receive c)
  | .chan none | .nil => fatal .deadlock
  | w => notDefined "<-" w.kindName

def send (chan v : Value) : Exec Unit := do
  match chan.unwrap with
  | .chan (some c) => attempt (Heap.send c (← Heap.copy v))
  | .chan none | .nil => fatal .deadlock
  | w => notDefined "<-" w.kindName

-- An index below the length.
def checkedIndex (index : Value) (length : Nat) : Exec Nat := do
  match index.int? with
  | some i =>
      if 0 ≤ i.val ∧ i.val < length then return i.val.toNat
      else fault (.indexOutOfRange i.toInt64 length)
  | none => notDefined "index" index.kindName

def orOutOfRange (i length : Nat) : Option Value → Exec Value
  | some v => pure v
  | none => fault (.indexOutOfRange i length)

-- What a map without the key gives: the zero value of its value type where that is known,
-- else the zero value like its first entry.
def missingEntry (p : Program) (m : Option MapId) (elem : Option Ty) : Exec Value := do
  match elem with
  | some ty => p.zeroValue ty
  | none =>
      match (← heap).entries m with
      | e :: _ => Heap.ofConstant ((← heap).zeroLike e.value)
      | [] => return .nil

-- An element of a value that is no pointer, with whether it is there.
def indexBare (p : Program) (base index : Value) (elem : Option Ty) : Exec (Value × Bool) := do
  match base.unwrap with
  | .str s =>
      let i ← checkedIndex index s.utf8ByteSize
      return (.byte ((Utf8.byteAt? s i).getD 0), true)
  | .slice w =>
      let i ← checkedIndex index (Heap.sliceLength w)
      return (← orOutOfRange i (Heap.sliceLength w) ((← heap).sliceGet? w i), true)
  | .array b =>
      let size := ((← heap).block b).size
      let i ← checkedIndex index size
      return (← orOutOfRange i size ((← heap).element? b i), true)
  | .map m =>
      let key ← ofExcept ((← heap).keyOf index)
      match (← heap).findKey? m key with
      | some e => return (e.value, true)
      | none => return (← p.missingEntry m elem, false)
  | .nil =>
      match elem with
      | some ty => return (← p.zeroValue ty, false)
      | none => fault .nilDereference
  | v => notDefined "[]" v.kindName

-- The value that stands behind pointers, however many there are.
def behindPointers : Nat → Value → Exec Value
  | 0, v => pure v
  | n + 1, v => do
      match v.unwrap with
      | .pointer a => behindPointers n (← ofExcept ((← heap).deref a))
      | _ => return v

def index (p : Program) (base index : Value) (elem : Option Ty) : Exec (Value × Bool) := do
  p.indexBare (← behindPointers (← heap).reach base) index elem

-- The bounds of a slice expression, where they are given.
structure Bounds where
  low : Option Int
  high : Option Int
  max : Option Int

def bound? : Option Value → Exec (Option Int)
  | none => pure none
  | some v =>
      match v.int? with
      | some n => pure (some n.toInt64)
      | none => notDefined "slice index" v.kindName

-- The bounds within a length and a capacity.
def Bounds.window (b : Bounds) (length capacity : Nat) : Exec (Nat × Nat × Nat) :=
  let low := b.low.getD 0
  let high := b.high.getD length
  let max := b.max.getD capacity
  if low < 0 ∨ high < low ∨ max < high ∨ capacity < max then
    fault (.boundsOutOfRange low high capacity)
  else pure (low.toNat, high.toNat, max.toNat)

def sliceArray (b : BlockId) (bounds : Bounds) : Exec Value := do
  let size := ((← heap).block b).size
  let (low, high, max) ← bounds.window size size
  return .slice (some ⟨b, low, high - low, max - low⟩)

-- A slice of a declared type keeps it, but a slice of an array has no declared type.
def slice (bounds : Bounds) : Value → Exec Value
  | .named t v => do
      let inner ← slice bounds v
      match v with
      | .array _ => return inner
      | _ => return .named t inner
  | .str s => do
      let (low, high, _) ← bounds.window s.utf8ByteSize s.utf8ByteSize
      return .str (Utf8.cut s low high)
  | .slice w => do
      let (low, high, max) ← bounds.window (Heap.sliceLength w) (Heap.sliceCapacity w)
      match Heap.reslice? w low high max with
      | some w' => return .slice w'
      | none => fault (.boundsOutOfRange low high (Heap.sliceCapacity w))
  | .array b => sliceArray b bounds
  | .pointer a => do
      match ← ofExcept ((← heap).deref a) with
      | .array b => sliceArray b bounds
      | v => notDefined "[:]" v.kindName
  | .nil => return .slice none
  | v => notDefined "[:]" v.kindName

def missingField {α : Type} (base : Value) (name : String) : Exec α := do
  match base.unwrap with
  | .pointer none | .nil => fault .nilDereference
  | _ => fatal (.noFieldOrMethod name ((← heap).typeName base))

def locateField (base : Value) (name : String) : Exec FieldRef := do
  match ← ofExcept ((← heap).locate base name) with
  | some field => return field
  | none => missingField base name

def storeSlot (place : Place) (i length : Nat) (v : Value) : Exec Unit := do
  if ((← heap).read? place).isSome then Heap.store place v
  else fault (.indexOutOfRange i length)

def storeElement (base key v : Value) : Exec Unit := do
  match base.unwrap with
  | .slice w =>
      let i ← checkedIndex key (Heap.sliceLength w)
      match w with
      | some win => storeSlot (.element win.block (win.offset + i)) i win.length v
      | none => fault (.indexOutOfRange i 0)
  | .array b =>
      let size := ((← heap).block b).size
      let i ← checkedIndex key size
      storeSlot (.element b i) i size v
  | .map none | .nil => fault .nilMapAssignment
  | .map m =>
      let k ← ofExcept ((← heap).keyOf key)
      attempt (Heap.insert m ⟨k, key, v⟩)
  | w => notDefined "[]=" w.kindName

-- A field takes the value in its own type.
def storeField (p : Program) (base : Value) (name : String) (v : Value) : Exec Unit := do
  match base with
  | .package ref =>
      match ref.scope with
      | some scope =>
          unless ← Heap.setLocal scope name v do fatal .invalidAssignTarget
      | none => fatal .invalidAssignTarget
  | _ =>
      let field ← locateField base name
      let v ← match field.owner.layout.fieldType? field.index with
        | some ty => p.coerce v ty
        | none => pure v
      if ((← heap).element? field.owner.block field.index).isSome then
        Heap.store (.element field.owner.block field.index) v

-- A store through a target. `operands` are the operands of the target in order.
def storeTarget (p : Program) (target : Target) (operands : List Value) (v : Value) :
    Exec Unit := do
  match target, operands with
  | .discard, _ => pure ()
  | .var name, _ =>
      unless ← Heap.assign (← currentScope) name v do p.undefined name
  | .index, [base, key] => storeElement (← behindPointers (← heap).reach base) key v
  | .field name, [base] => p.storeField base name v
  | .deref, [pointer] =>
      match pointer.unwrap with
      | .pointer (some a) => attempt (Heap.storeAt a v)
      | .pointer none | .nil => fault .nilDereference
      | w => notDefined "*" w.kindName
  | _, _ => fatal .invalidAssignTarget

-- What a target holds, for an operator that updates it.
def loadTarget (p : Program) (target : Target) (operands : List Value) (ty : Option Ty) :
    Exec Value := do
  match target, operands with
  | .var name, _ =>
      match (← heap).lookup (← currentScope) name with
      | some v => return v
      | none => p.undefined name
  | .index, [base, key] => return (← p.index base key ty).1
  | .field name, [base] =>
      match base with
      | .package ref =>
          match ← p.member? ref name with
          | some v => return v
          | none => fatal .invalidAssignTarget
      | _ => return (← heap).fieldValue (← locateField base name)
  | .deref, [pointer] => deref pointer
  | _, _ => fatal .invalidAssignTarget

def addressOfVariable (p : Program) (name : String) : Exec Address := do
  match (← heap).owner? (← currentScope) name with
  | some owner =>
      match ← (Heap.variableAddress owner name : HeapM (Option Address)) with
      | some a => return a
      | none => p.undefined name
  | none => p.undefined name

def addressOfField (base : Value) (name : String) : Exec Address := do
  let field ← locateField base name
  Heap.slotAddress field.owner.block field.index

def addressOfElement (base index : Value) : Exec Address := do
  match (← behindPointers (← heap).reach base).unwrap with
  | .slice w =>
      let i ← checkedIndex index (Heap.sliceLength w)
      match w with
      | some win => Heap.slotAddress win.block (win.offset + i)
      | none => fault (.indexOutOfRange i 0)
  | .array b =>
      let i ← checkedIndex index ((← heap).block b).size
      Heap.slotAddress b i
  | v => notDefined "&[]" v.kindName

end Program

end StepGraph
