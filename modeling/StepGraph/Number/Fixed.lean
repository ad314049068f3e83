import StepGraph.Tree.IntKind

namespace StepGraph

namespace IntKind

-- The least integer of the kind.
def lowest (k : IntKind) : Int := if k.isSigned then -(pow2 (k.bits - 1) : Int) else 0

def Holds (k : IntKind) (n : Int) : Prop := k.lowest ≤ n ∧ n < k.lowest + k.modulus

instance (k : IntKind) (n : Int) : Decidable (k.Holds n) :=
  inferInstanceAs (Decidable (_ ∧ _))

-- The integer of the kind that is congruent to `n` modulo the number of values.
def wrap (k : IntKind) (n : Int) : Int := (n - k.lowest) % k.modulus + k.lowest

theorem modulus_pos (k : IntKind) : (0 : Int) < k.modulus :=
  Int.natCast_pos.mpr (pow2_pos k.bits)

theorem holds_wrap (k : IntKind) (n : Int) : k.Holds (k.wrap n) := by
  have hpos := k.modulus_pos
  have hlow := Int.emod_nonneg (n - k.lowest) (Int.ne_of_gt hpos)
  have hhigh := Int.emod_lt_of_pos (n - k.lowest) hpos
  unfold Holds wrap
  omega

theorem wrap_of_holds {k : IntKind} {n : Int} (h : k.Holds n) : k.wrap n = n := by
  obtain ⟨hlow, hhigh⟩ := h
  unfold wrap
  rw [Int.emod_eq_of_lt (by omega) (by omega)]
  omega

-- The place of a kind when operands of two kinds meet: an untyped constant is an `int`,
-- an untyped rune an `int32`, and any other kind was declared.
def rank : IntKind → Nat
  | int => 0
  | int32 => 1
  | _ => 2

end IntKind

-- An integer of a fixed width.
structure IntValue where
  kind : IntKind
  val : Int
  holds : kind.Holds val
  deriving DecidableEq

namespace IntValue

-- The value of the kind that `n` wraps to.
def ofInt (k : IntKind) (n : Int) : IntValue := ⟨k, k.wrap n, k.holds_wrap n⟩

instance : Inhabited IntValue := ⟨ofInt .int 0⟩

def plain (n : Int) : IntValue := ofInt .int n

def withKind (a : IntValue) (k : IntKind) : IntValue := ofInt k a.val

def text (a : IntValue) : String := toString a.val

def isZero (a : IntValue) : Bool := a.val == 0

def isNegative (a : IntValue) : Bool := a.val < 0

-- The 64 bits that hold the value, sign-extended for a signed kind.
def bits (a : IntValue) : BitVec 64 := BitVec.ofInt 64 a.val

def toNat64 (a : IntValue) : Nat := a.bits.toNat

def toInt64 (a : IntValue) : Int := a.bits.toInt

-- The nearest double.
def toFloat (a : IntValue) : Float :=
  if a.kind.isSigned then (Int64.ofInt a.val).toFloat else (UInt64.ofNat a.val.toNat).toFloat

-- The result of an operation has the kind of the left operand.

def add (a b : IntValue) : IntValue := ofInt a.kind (a.val + b.val)

def sub (a b : IntValue) : IntValue := ofInt a.kind (a.val - b.val)

def mul (a b : IntValue) : IntValue := ofInt a.kind (a.val * b.val)

-- Division truncates toward zero. Callers keep zero divisors out.
def div (a b : IntValue) : IntValue := ofInt a.kind (a.val.tdiv b.val)

def rem (a b : IntValue) : IntValue := ofInt a.kind (a.val.tmod b.val)

def and (a b : IntValue) : IntValue := ofInt a.kind (a.bits &&& b.bits).toInt

def or (a b : IntValue) : IntValue := ofInt a.kind (a.bits ||| b.bits).toInt

def xor (a b : IntValue) : IntValue := ofInt a.kind (a.bits ^^^ b.bits).toInt

def andNot (a b : IntValue) : IntValue := ofInt a.kind (a.bits &&& ~~~b.bits).toInt

def neg (a : IntValue) : IntValue := ofInt a.kind (-a.val)

def complement (a : IntValue) : IntValue := ofInt a.kind (-a.val - 1)

-- A shift by the width or more leaves nothing but the sign.

def shl (a : IntValue) (count : Nat) : IntValue :=
  if a.kind.bits ≤ count then ofInt a.kind 0 else ofInt a.kind (a.val * pow2 count)

def shr (a : IntValue) (count : Nat) : IntValue :=
  if a.kind.bits ≤ count then ofInt a.kind (if a.isNegative then -1 else 0)
  else ofInt a.kind (a.val >>> count)

end IntValue

end StepGraph
