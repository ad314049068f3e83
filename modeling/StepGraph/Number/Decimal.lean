import StepGraph.Number.Binary

namespace StepGraph

-- The number `coef · 10 ^ scale`.
structure Decimal where
  coef : Nat
  scale : Int
  deriving DecidableEq

namespace Decimal

def digits (d : Decimal) : List Char := Nat.toDigits 10 d.coef

-- The exponent of the first digit.
def exponent (d : Decimal) : Int := d.digits.length - 1 + d.scale

def zeros (n : Nat) : List Char := List.replicate n '0'

-- Ten of a unit as one of the next.
def carried (d : Decimal) : Decimal := if d.coef = 10 then ⟨1, d.scale + 1⟩ else d

-- Positional notation with no more digits than it takes.
def positional (d : Decimal) : List Char :=
  let ds := d.digits
  let point := ds.length + d.scale
  if 0 ≤ d.scale then ds ++ zeros d.scale.toNat
  else if 0 < point then ds.take point.toNat ++ '.' :: ds.drop point.toNat
  else '0' :: '.' :: zeros (-point).toNat ++ ds

-- The digits with a point after the first.
def mantissa (d : Decimal) : List Char :=
  match d.digits with
  | [] => []
  | [c] => [c]
  | c :: cs => c :: '.' :: cs

end Decimal

-- The quotient rounded to the nearest integer, a half to the even neighbour.
def roundHalfEven (num den : Nat) : Nat :=
  let q := num / den
  let twice := 2 * (num % den)
  if twice < den then q
  else if den < twice then q + 1
  else q + q % 2

namespace Binary

-- The largest `k` with `10 ^ k ≤ num / den`.
def magnitude (num den : Nat) : Int :=
  if den ≤ num then (Nat.toDigits 10 (num / den)).length - 1
  else -((Nat.toDigits 10 ((den - 1) / num)).length : Int)

-- The fraction divided by `10 ^ scale`.
def rescale (scale : Int) (num den : Nat) : Nat × Nat :=
  (num * pow10 (-scale).toNat, den * pow10 scale.toNat)

-- A decimal reads back as `b` when it lies between the halves of the gaps around `b`.
-- The ends belong to the number whose mantissa is even.
def readsBack (b : Binary) (coef : Nat) (scale : Int) : Bool :=
  let (low, den) := b.quarters (4 * b.mant - if b.narrowBelow then 1 else 2)
  let (high, _) := b.quarters (4 * b.mant + 2)
  let (low, den') := rescale scale low den
  let (high, _) := rescale scale high den
  if b.mant % 2 = 0 then low ≤ coef * den' && coef * den' ≤ high
  else low < coef * den' && coef * den' < high

-- The neighbour of `b` among the multiples of `10 ^ scale` that reads back as `b`.
-- Of two the nearer one is taken, and of two that are equally near the larger.
def neighbour? (b : Binary) (scale : Int) : Option Decimal :=
  let (num, den) := rescale scale b.ratio.1 b.ratio.2
  let below := num / den
  match b.readsBack below scale, b.readsBack (below + 1) scale with
  | true, true => some ⟨if 2 * (num % den) < den then below else below + 1, scale⟩
  | true, false => some ⟨below, scale⟩
  | false, true => some ⟨below + 1, scale⟩
  | false, false => none

-- The decimal with the fewest digits that reads back as `b`. Seventeen always do. With one
-- digit the neighbour above can be ten units.
def shortest (b : Binary) : Decimal :=
  if b.isZero then ⟨0, 0⟩
  else
    let top := magnitude b.ratio.1 b.ratio.2
    match (List.range 17).findSome? fun (n : Nat) => b.neighbour? (top - n) with
    | some d => d.carried
    | none => ⟨b.ratio.1 / b.ratio.2, 0⟩

-- The nearest decimal with the given number of places after the point.
def toPlaces (b : Binary) (places : Nat) : Decimal :=
  let (num, den) := rescale (-places) b.ratio.1 b.ratio.2
  ⟨roundHalfEven num den, -places⟩

-- The nearest decimal with `count + 1` digits.
def toDigits (b : Binary) (count : Nat) : Decimal :=
  if b.isZero then ⟨0, 0⟩
  else
    let scale := magnitude b.ratio.1 b.ratio.2 - count
    let (num, den) := rescale scale b.ratio.1 b.ratio.2
    let coef := roundHalfEven num den
    if coef = pow10 (count + 1) then ⟨pow10 count, scale + 1⟩ else ⟨coef, scale⟩

end Binary

end StepGraph
