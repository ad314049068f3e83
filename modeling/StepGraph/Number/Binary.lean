import StepGraph.Number.Power

namespace StepGraph

-- A finite binary number `mant · 2 ^ exp` with its sign, and how the format rounds near it.
-- `narrowBelow` holds where the gap to the next number below is half the gap to the next above.
structure Binary where
  negative : Bool
  mant : Nat
  exp : Int
  narrowBelow : Bool

namespace Binary

-- The number of a format with `width` fraction bits whose exponent field is `field`.
-- `bias` is the exponent that the unit of the fraction has in the field one.
def ofFields (width : Nat) (bias : Int) (negative : Bool) (field fraction : Nat) : Binary :=
  if field = 0 then ⟨negative, fraction, bias, false⟩
  else ⟨negative, fraction + pow2 width, bias + field - 1, fraction = 0 && 1 < field⟩

-- The double with the given bits, unless it is infinite or no number.
def ofDouble? (x : Float) : Option Binary :=
  let bits := x.toBits.toNat
  let field := bits / pow2 52 % pow2 11
  if field = 2047 then none
  else some (ofFields 52 (-1074) (pow2 63 ≤ bits) field (bits % pow2 52))

def ofSingle? (x : Float32) : Option Binary :=
  let bits := x.toBits.toNat
  let field := bits / pow2 23 % pow2 8
  if field = 255 then none
  else some (ofFields 23 (-149) (pow2 31 ≤ bits) field (bits % pow2 23))

def isZero (b : Binary) : Bool := b.mant == 0

-- The magnitude in quarters of the unit, as a fraction. Four parts leave room for
-- the ends of the interval that rounds to the number.
def quarters (b : Binary) (parts : Nat) : Nat × Nat :=
  if 2 ≤ b.exp then (parts * pow2 (b.exp - 2).toNat, 1) else (parts, pow2 (2 - b.exp).toNat)

def ratio (b : Binary) : Nat × Nat := b.quarters (4 * b.mant)

-- The magnitude without its fraction.
def floor (b : Binary) : Nat := b.ratio.1 / b.ratio.2

def isIntegral (b : Binary) : Bool := b.ratio.1 % b.ratio.2 == 0

def truncated (b : Binary) : Int := if b.negative then -(b.floor : Int) else b.floor

-- The nearest number that fits 128 bits.
def clamp128 (n : Int) : Int := max (-pow2 127) (min (pow2 127 - 1) n)

-- The integer part of a double, within 128 bits. An infinity gives the end of that range
-- and a value that is no number gives zero.
def integerPart (x : Float) : Int :=
  match ofDouble? x with
  | some b => clamp128 b.truncated
  | none => if x.isNaN then 0 else if x < 0 then -pow2 127 else pow2 127 - 1

-- Whether a double is an integer.
def isWhole (x : Float) : Bool :=
  match ofDouble? x with
  | some b => b.isIntegral
  | none => false

end Binary

end StepGraph
