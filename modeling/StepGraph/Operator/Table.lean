import StepGraph.Operator.Family

namespace StepGraph

-- The basic types, under which operators are listed.
inductive OperandKey where
  | bool
  | int (kind : IntKind)
  | float32 | float64 | complex64 | complex128 | string
  deriving DecidableEq

namespace OperandKey

def all : List OperandKey :=
  [bool, float32, float64, complex64, complex128, string] ++ IntKind.all.map int

def ofTy? : Ty → Option OperandKey
  | .bool => some bool
  | .int k => some (int k)
  | .float32 => some float32
  | .float64 => some float64
  | .complex64 => some complex64
  | .complex128 => some complex128
  | .string => some string
  | _ => none

def ofValue? : Value → Option OperandKey
  | .bool _ => some bool
  | .int n => some (int n.kind)
  | .float32 _ => some float32
  | .float64 _ => some float64
  | .complex64 _ => some complex64
  | .complex128 _ => some complex128
  | .str _ => some string
  | _ => none

def family : OperandKey → Family
  | bool => .bool
  | int _ => .int
  | float32 | float64 => .float
  | complex64 | complex128 => .complex
  | string => .string

def isInt : OperandKey → Bool
  | int _ => true
  | _ => false

-- The family that an operator of the table belongs to. The table lists each operator for two
-- operands of one type, and shifts for any two integer types.
def resolve? (l : OperandKey) (op : BinaryOp) (r : OperandKey) : Option Family :=
  if op.isShift then if l.isInt && r.isInt then some .int else none
  else if l = r && l.family.defines op then some l.family
  else none

-- The operators that the table lists for two types.
def listed (l r : OperandKey) : List BinaryOp :=
  BinaryOp.all.filter fun op => (l.resolve? op r).isSome

-- The number of entries of the table.
def tableSize : Nat := (all.flatMap fun l => all.flatMap (listed l)).length

end OperandKey

-- The operator for operands of two static types, if the table lists it.
def resolveOperator? (l : Ty) (op : BinaryOp) (r : Ty) : Option Family := do
  (← OperandKey.ofTy? l).resolve? op (← OperandKey.ofTy? r)

end StepGraph
