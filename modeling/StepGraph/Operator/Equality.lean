import StepGraph.Heap.Basic
import StepGraph.Operator.Family

namespace StepGraph

namespace IntValue

-- The kind that two integers are brought to. The kind that was declared wins over the kind
-- of an untyped constant, and of two such kinds the left one.
def commonKind (a b : IntValue) : IntKind :=
  if a.kind.rank < b.kind.rank then b.kind else a.kind

end IntValue

namespace Value

def complexOf (single : Bool) (v : Value) : Value :=
  match Family.float? v with
  | some x => Family.complexResult single ⟨x, 0⟩
  | none => v

-- Two operands without declared types, numbers of different types brought to one type.
-- An integer turns into the type of a floating-point number beside it, a double into single
-- precision beside a single, and any number into a complex one beside a complex number.
def unify : Value → Value → Value × Value
  | .int a, .int b =>
      if a.kind = b.kind then (.int a, .int b)
      else (.int (a.withKind (a.commonKind b)), .int (b.withKind (a.commonKind b)))
  | .int a, .float32 y => (.float32 a.toFloat.toFloat32, .float32 y)
  | .float32 x, .int b => (.float32 x, .float32 b.toFloat.toFloat32)
  | .int a, .float64 y => (.float64 a.toFloat, .float64 y)
  | .float64 x, .int b => (.float64 x, .float64 b.toFloat)
  | .float64 x, .float32 y => (.float32 x.toFloat32, .float32 y)
  | .float32 x, .float64 y => (.float32 x, .float32 y.toFloat32)
  | .complex128 a, .complex64 b => (.complex64 a.narrow, .complex64 b)
  | .complex64 a, .complex128 b => (.complex64 a, .complex64 b.narrow)
  | .complex128 a, r => (.complex128 a, complexOf false r)
  | .complex64 a, r => (.complex64 a, complexOf true r)
  | l, .complex128 b => (complexOf false l, .complex128 b)
  | l, .complex64 b => (complexOf true l, .complex64 b)
  | l, r => (l, r)

def isNumber : Value → Bool
  | .int _ | .float32 _ | .float64 _ | .complex64 _ | .complex128 _ => true
  | _ => false

-- Equality of two numbers once they have one type.
def sameNumber (l r : Value) : Bool :=
  match unify l r with
  | (.int a, .int b) => a.val == b.val
  | (.complex64 a, .complex64 b) | (.complex128 a, .complex128 b) => a.same b
  | (l, r) =>
      match Family.float? l, Family.float? r with
      | some x, some y => x == y
      | none, none => true
      | _, _ => false

end Value

end StepGraph

namespace StepGraph.Heap

-- Whether all pairs are equal. The first pair that differs ends the comparison.
def allEqual (equal : Value → Value → Except Failure Bool) :
    List Value → List Value → Except Failure Bool
  | x :: xs, y :: ys => do
      if ← equal x y then allEqual equal xs ys else return false
  | _, _ => .ok true

-- Equality of two values that have no declared type around them.
def equalBare (inBlock : Value → Value → Except Failure Bool) (h : Heap) :
    Value → Value → Except Failure Bool
  | .nil, v => .ok v.isNil
  | v, .nil => .ok v.isNil
  | .bool a, .bool b => .ok (a == b)
  | .str a, .str b => .ok (a == b)
  | .pointer a, .pointer b => .ok (a == b)
  | .chan a, .chan b => .ok (a == b)
  | .error a, .error b => .ok (a.id == b.id)
  | .package a, .package b => .ok (a == b)
  | .struct a, .struct b =>
      if a.typeName ≠ b.typeName ∨ a.layout.length ≠ b.layout.length then .ok false
      else allEqual inBlock (h.block a.block).toList (h.block b.block).toList
  | .array a, .array b =>
      if (h.block a).size ≠ (h.block b).size then .ok false
      else allEqual inBlock (h.block a).toList (h.block b).toList
  | l, r =>
      if l.isNumber && r.isNumber then .ok (l.sameNumber r)
      else if sameKind l r && (l.isNil || r.isNil) then .ok (l.isNil && r.isNil)
      else if isUncomparable l then .error (.fault (.uncomparable l.kindName))
      else .ok false
where
  isUncomparable : Value → Bool
    | .slice _ | .map _ | .func _ | .method .. => true
    | _ => false
  sameKind (l r : Value) : Bool := isUncomparable l && l.kindName == r.kindName

-- Values of two declared types differ. A declared type around one side only does not count.
def equalWith (inBlock : Value → Value → Except Failure Bool) (h : Heap) :
    Value → Value → Except Failure Bool
  | .named s v, .named t w => if s = t then equalWith inBlock h v w else .ok false
  | .named _ v, w => equalBare inBlock h v.unwrap w
  | v, .named _ w => equalBare inBlock h w.unwrap v
  | v, w => equalBare inBlock h v w

def equalUpTo (h : Heap) : Nat → Value → Value → Except Failure Bool
  | 0, _, _ => .ok false
  | n + 1, v, w => equalWith (equalUpTo h n) h v w

-- Equality as the language has it. Slices, maps and functions can be compared with nil only.
def equal (h : Heap) (v w : Value) : Except Failure Bool := equalUpTo h h.depth v w

end StepGraph.Heap
