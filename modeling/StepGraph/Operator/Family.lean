import StepGraph.Error.Fault
import StepGraph.Number.Binary
import StepGraph.Tree.Operator
import StepGraph.Value.Basic

namespace StepGraph

-- The kinds of operands that share their operators.
inductive Family where
  | bool | int | float | complex | string
  deriving DecidableEq

namespace Family

def notDefined {α : Type} (op : BinaryOp) (v : Value) : Except Failure α :=
  .error (.notDefined op.symbol v.kindName)

-- A number as a double.
def float? : Value → Option Float
  | .float32 x => some x.toFloat
  | .float64 x => some x
  | .int n => some n.toFloat
  | _ => none

-- A result in the precision of the left operand.
def floatResult (single : Bool) (x : Float) : Value :=
  if single then .float32 x.toFloat32 else .float64 x

def complexResult (single : Bool) (z : Complex) : Value :=
  if single then .complex64 z.narrow else .complex128 z

-- The number of places of a shift.
def shiftCount (op : BinaryOp) (v : Value) : Except Failure Nat :=
  match v.unwrap with
  | .int n => if n.isNegative then .error (.fault .negativeShift) else .ok n.toNat64
  | .float64 x =>
      if Binary.isWhole x && 0 ≤ x then .ok (min (Binary.integerPart x).toNat (pow2 64 - 1))
      else notDefined op v
  | _ => notDefined op v

def shift (op : BinaryOp) (l r : Value) : Except Failure Value :=
  match l.int? with
  | some a => do
      let n ← shiftCount op r
      return .int (if op = .shl then a.shl n else a.shr n)
  | none => notDefined op l

def intOp (op : BinaryOp) (l : Value) (a b : IntValue) : Except Failure Value :=
  match op with
  | .add => .ok (.int (a.add b))
  | .sub => .ok (.int (a.sub b))
  | .mul => .ok (.int (a.mul b))
  | .div => if b.isZero then .error (.fault .divideByZero) else .ok (.int (a.div b))
  | .rem => if b.isZero then .error (.fault .divideByZero) else .ok (.int (a.rem b))
  | .bitAnd => .ok (.int (a.and b))
  | .bitOr => .ok (.int (a.or b))
  | .bitXor => .ok (.int (a.xor b))
  | .andNot => .ok (.int (a.andNot b))
  | .eq => .ok (.bool (a.val == b.val))
  | .notEq => .ok (.bool (a.val != b.val))
  | .lt => .ok (.bool (a.val < b.val))
  | .ltEq => .ok (.bool (a.val ≤ b.val))
  | .gt => .ok (.bool (b.val < a.val))
  | .gtEq => .ok (.bool (b.val ≤ a.val))
  | .shl | .shr | .logicalAnd | .logicalOr => notDefined op l

def floatOp (op : BinaryOp) (l : Value) (single : Bool) (a b : Float) : Except Failure Value :=
  match op with
  | .add => .ok (floatResult single (a + b))
  | .sub => .ok (floatResult single (a - b))
  | .mul => .ok (floatResult single (a * b))
  | .div => .ok (floatResult single (a / b))
  | .eq => .ok (.bool (a == b))
  | .notEq => .ok (.bool (a != b))
  | .lt => .ok (.bool (a < b))
  | .ltEq => .ok (.bool (a ≤ b))
  | .gt => .ok (.bool (b < a))
  | .gtEq => .ok (.bool (b ≤ a))
  | _ => notDefined op l

def complexOp (op : BinaryOp) (l : Value) (single : Bool) (a b : Complex) :
    Except Failure Value :=
  match op with
  | .add => .ok (complexResult single (a.add b))
  | .sub => .ok (complexResult single (a.sub b))
  | .mul => .ok (complexResult single (a.mul b))
  | .div => .ok (complexResult single (a.div b))
  | .eq => .ok (.bool (a.same b))
  | .notEq => .ok (.bool !(a.same b))
  | _ => notDefined op l

-- Strings are ordered by their characters.
def stringOp (op : BinaryOp) (l : Value) (a b : String) : Except Failure Value :=
  match op with
  | .add => .ok (.str (a ++ b))
  | .eq => .ok (.bool (a == b))
  | .notEq => .ok (.bool (a != b))
  | .lt => .ok (.bool (a < b))
  | .ltEq => .ok (.bool !(b < a))
  | .gt => .ok (.bool (b < a))
  | .gtEq => .ok (.bool !(a < b))
  | _ => notDefined op l

def boolOp (op : BinaryOp) (l : Value) (a b : Bool) : Except Failure Value :=
  match op with
  | .eq => .ok (.bool (a == b))
  | .notEq => .ok (.bool (a != b))
  | .logicalAnd => .ok (.bool (a && b))
  | .logicalOr => .ok (.bool (a || b))
  | _ => notDefined op l

-- Whether the family has the operator.
def defines : Family → BinaryOp → Bool
  | int, op => !op.isLogical
  | float, op => [.add, .sub, .mul, .div].contains op || op.isComparison
  | complex, op => [.add, .sub, .mul, .div, .eq, .notEq].contains op
  | string, op => op == .add || op.isComparison
  | bool, op => [.eq, .notEq, .logicalAnd, .logicalOr].contains op

-- An operator of the family on operands that are expected to belong to it. A declared type
-- around an operand is disregarded, and numbers serve as floating-point operands.
def apply (family : Family) (op : BinaryOp) (l r : Value) : Except Failure Value :=
  match family with
  | int =>
      if op.isShift then shift op l r
      else match l.unwrap, r.unwrap with
        | .int a, .int b => intOp op l a b
        | _, _ => notDefined op l
  | float =>
      let single := match l.unwrap with
        | .float32 _ => true
        | _ => false
      match float? l.unwrap, float? r.unwrap with
      | some a, some b => floatOp op l single a b
      | _, _ => notDefined op l
  | complex =>
      match l.unwrap, r.unwrap with
      | .complex64 a, .complex64 b => complexOp op l true a b
      | .complex128 a, .complex128 b => complexOp op l false a b
      | _, _ => notDefined op l
  | string =>
      match l.str?, r.str? with
      | some a, some b => stringOp op l a b
      | _, _ => notDefined op l
  | bool =>
      match l.bool?, r.bool? with
      | some a, some b => boolOp op l a b
      | _, _ => notDefined op l

end Family

end StepGraph
