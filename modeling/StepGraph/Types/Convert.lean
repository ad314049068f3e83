import StepGraph.Heap.Copy
import StepGraph.Heap.Pointer
import StepGraph.Heap.Slice
import StepGraph.Number.Binary
import StepGraph.Operator.Family
import StepGraph.Text.Utf8
import StepGraph.Types.Table
import StepGraph.Value.Basic

namespace StepGraph.TypeTable

mutual

-- The zero value of a type, where `declared` gives those of the declared types.
def zeroWith (declared : String → Constant) : Ty → Constant
  | .bool => .bool false
  | .int k => .int (.ofInt k 0)
  | .float32 => .float32 0
  | .float64 => .float64 0
  | .complex64 => .complex64 .zero
  | .complex128 => .complex128 .zero
  | .string => .str ""
  | .slice _ => .nilSlice
  | .array n e => .array (List.replicate n (zeroWith declared e))
  | .map _ _ => .nilMap
  | .pointer _ => .nilPointer
  | .chan _ => .nilChan
  | .func _ _ _ => .nilFunc
  | .interface _ | .untypedNil => .nil
  | .struct fields => .struct ⟨fields⟩ none (fieldZeros declared fields)
  | .named n => declared n

def fieldZeros (declared : String → Constant) : List Field → List Constant
  | [] => []
  | ⟨_, ty, _⟩ :: fs => zeroWith declared ty :: fieldZeros declared fs

end

-- The zero value of a declared type, which no more than `n` others stand around.
def zeroNamed (t : TypeTable) : Nat → String → Constant
  | 0, _ => .nil
  | n + 1, name =>
      match t.info? name with
      | none => .nil
      | some i =>
          match i.layout, t.resolve i.underlying with
          | some layout, _ => .struct layout (some name) (fieldZeros (zeroNamed t n) layout.fields)
          | none, .interface _ => .nil
          | none, ty => .named name (zeroWith (zeroNamed t n) ty)

-- What a variable of the type holds before it is assigned.
def zero (t : TypeTable) (ty : Ty) : Constant := zeroWith (t.zeroNamed (t.types.length + 1)) ty

def zeroValue (t : TypeTable) (ty : Ty) : HeapM Value := Heap.ofConstant (t.zero ty)

def toInt? (k : IntKind) : Value → Option Value
  | .int n => some (.int (n.withKind k))
  | .float32 x => some (.intOf k (Binary.integerPart x.toFloat))
  | .float64 x => some (.intOf k (Binary.integerPart x))
  | _ => none

def toComplex? : Value → Option Complex
  | .complex64 z | .complex128 z => some z
  | v => (Family.float? v).map (⟨·, 0⟩)

-- The text of a slice of bytes or of runes, whichever its first element is.
def textOfElems (elems : List Value) : String :=
  let ints := elems.filterMap (·.int?)
  match (elems.head?.bind Value.int?).map IntValue.kind with
  | some .uint8 => Utf8.ofBytes (ints.map fun n => UInt8.ofNat n.toNat64)
  | _ => String.ofList (ints.map fun n => Utf8.charOfInt n.val)

def cannotConvert (v : Value) (ty : Ty) : Failure :=
  .notDefined ("conversion to " ++ ty.text) v.kindName

def orFail {α : Type} (e : Failure) : Option α → Attempt α
  | some a => pure a
  | none => throw e

def copied (v : Value) : Attempt Value := monadLift (Heap.copy v)

-- A value without a declared type, converted to a type that is none either.
def convertBare (t : TypeTable) (v : Value) (ty : Ty) : Attempt Value :=
  match ty, v with
  | .int k, v => orFail (cannotConvert v ty) (toInt? k v)
  | .float32, v => orFail (cannotConvert v ty) ((Family.float? v).map fun x => .float32 x.toFloat32)
  | .float64, v => orFail (cannotConvert v ty) ((Family.float? v).map .float64)
  | .complex64, v =>
      orFail (cannotConvert v ty) ((toComplex? v).map fun z => .complex64 z.narrow)
  | .complex128, v => orFail (cannotConvert v ty) ((toComplex? v).map .complex128)
  | .string, .str s => pure (.str s)
  | .string, .int n => pure (.str (String.singleton (Utf8.charOfInt n.val)))
  | .string, .slice w => return .str (textOfElems ((← getThe Heap).sliceElems w))
  | .slice e, .str s =>
      match t.resolve e with
      | .int .uint8 => monadLift (Heap.newSlice ((Utf8.bytes s).map .byte))
      | .int .int32 => monadLift (Heap.newSlice (s.toList.map .rune))
      | _ => throw (cannotConvert v ty)
  | .bool, .bool _ | .slice _, .slice _ | .array _ _, .array _ | .map _ _, .map _
  | .pointer _, .pointer _ | .chan _, .chan _ | .func _ _ _, .func _
  | .func _ _ _, .method _ _ _ => pure v
  | .struct _, .struct s => do
      match ← copied (.struct s) with
      | .struct c => return .struct { c with typeName := none }
      | c => return c
  | _, _ => throw (cannotConvert v ty)

-- The conversion `ty(v)`.
def convert (t : TypeTable) (v : Value) (ty : Ty) : Attempt Value :=
  if v.isBareNil then monadLift (t.zeroValue ty)
  else if t.isInterface ty then pure v
  else match ty with
    | .named n => do
        match ← t.convertBare v.unwrap (t.resolve ty) with
        | .struct s => return .struct { s with typeName := some n }
        | inner => return .named n inner
    | _ => t.convertBare v.unwrap ty

-- A number brought to the basic type of the place that it flows into.
def adapt (v : Value) (ty : Ty) : Value :=
  match ty, v with
  | .int k, .int n => .int (n.withKind k)
  | .int k, .float64 x => if Binary.isWhole x then .intOf k (Binary.integerPart x) else v
  | .float32, .int n => .float32 n.toFloat.toFloat32
  | .float32, .float64 x => .float32 x.toFloat32
  | .float64, .int n => .float64 n.toFloat
  | .float64, .float32 x => .float64 x.toFloat
  | .complex64, v =>
      match toComplex? v with
      | some z => .complex64 z.narrow
      | none => v
  | .complex128, v =>
      match toComplex? v with
      | some z => .complex128 z
      | none => v
  | _, v => v

-- Values that a declared basic type takes on.
def isBasicValue : Value → Bool
  | .int _ | .float32 _ | .float64 _ | .complex64 _ | .complex128 _ | .str _ | .bool _ => true
  | _ => false

-- What a value becomes in a place of the type without a conversion being written. A value of
-- no declared type takes the type of the place, numbers in that type's width. Any other
-- value stays what it is.
def settle (t : TypeTable) (v : Value) (ty : Ty) : Value :=
  match v with
  | .named .. | .struct _ => v
  | v =>
      match ty with
      | .named n =>
          match t.resolve ty with
          | .struct _ | .interface _ => v
          | underlying =>
              if underlying.isBasic then
                if isBasicValue v then .named n (adapt v underlying) else v
              else .named n v
      | ty => if ty.isBasic then adapt v ty else v

-- The value that flows into a place of the type. Untyped nil turns into the zero value.
def coerce (t : TypeTable) (v : Value) (ty : Ty) : HeapM Value :=
  if v.isBareNil then t.zeroValue ty else pure (t.settle v ty)

end StepGraph.TypeTable
