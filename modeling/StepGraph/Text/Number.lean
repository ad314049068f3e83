import StepGraph.Number.Decimal
import StepGraph.Number.Complex

namespace StepGraph.Text

-- A sign and at least two digits.
def exponentText (e : Int) : String :=
  let ds := toString e.natAbs
  (if e < 0 then "-" else "+") ++ (if ds.length < 2 then "0" ++ ds else ds)

-- The texts of values that have no digits.
def special? (x : Float) : Option String :=
  if x.isNaN then some "NaN"
  else if x.isInf then some (if x < 0 then "-Inf" else "+Inf")
  else none

-- The shortest number that reads back, in the precision the value is held in.
def binaryOf? (single : Bool) (x : Float) : Option Binary :=
  if single then Binary.ofSingle? x.toFloat32 else Binary.ofDouble? x

def signText (b : Binary) : String := if b.negative then "-" else ""

def withExponent (b : Binary) (mantissa : String) (e : Int) : String :=
  signText b ++ mantissa ++ "e" ++ exponentText e

-- A fraction without the zeros at its end, and without the point if nothing is left of it.
def trimFraction (s : String) : String :=
  if s.contains '.' then
    let rest := s.toList.reverse.dropWhile (· == '0')
    String.ofList (rest.dropWhile (· == '.')).reverse
  else s

-- The text of a floating-point number where no form is asked for: the fewest digits that
-- read back, with an exponent for numbers below `10 ^ -4` and from `10 ^ 6` on.
def general (x : Float) (single : Bool) : String :=
  match special? x, binaryOf? single x with
  | some s, _ => s
  | none, none => (if x < 0 then "-" else "") ++ "inf"
  | none, some b =>
      let d := b.shortest
      if d.exponent < -4 || 6 ≤ d.exponent then
        withExponent b (String.ofList d.mantissa) d.exponent
      else signText b ++ String.ofList d.positional

-- The same digits, never with an exponent.
def plain (x : Float) (single : Bool) : String :=
  match binaryOf? single x with
  | some b => signText b ++ String.ofList b.shortest.positional
  | none => if x.isNaN then "NaN" else if x < 0 then "-inf" else "inf"

-- One digit before the point and `places` after it.
def scientificDigits (b : Binary) (places : Nat) : String × Int :=
  let d := b.toDigits places
  if b.isZero then
    (String.ofList ('0' :: if places = 0 then [] else '.' :: Decimal.zeros places), 0)
  else (String.ofList d.mantissa, d.exponent)

def scientific (b : Binary) (places : Nat) : String :=
  let (mantissa, e) := scientificDigits b places
  withExponent b mantissa e

def fixed (b : Binary) (places : Nat) : String :=
  signText b ++ String.ofList (b.toPlaces places).positional

-- At most `digits` digits, with an exponent where the number is below `10 ^ -4` or
-- the digits do not reach the point.
def compact (b : Binary) (digits : Nat) : String :=
  let (mantissa, e) := scientificDigits b (digits - 1)
  if e < -4 || digits ≤ e then withExponent b (trimFraction mantissa) e
  else trimFraction (fixed b (digits - 1 - e).toNat)

-- The number for a verb of a format string. Without a precision `e` and `f` take six places.
def floatVerb (x : Float) (verb : Char) (precision : Option Nat) (single : Bool) : String :=
  match special? x, Binary.ofDouble? x with
  | some s, _ => s
  | none, none => ""
  | none, some b =>
      match verb with
      | 'e' => scientific b (precision.getD 6)
      | 'E' => (scientific b (precision.getD 6)).toUpper
      | 'f' | 'F' => fixed b (precision.getD 6)
      | 'G' => (compactOr b precision).toUpper
      | _ => compactOr b precision
where
  compactOr (b : Binary) : Option Nat → String
    | none => general x single
    | some p => compact b (max p 1)

-- The parts in parentheses with a sign between them.
def complex (z : Complex) (single : Bool) : String :=
  let im := general z.im single
  let sign := if im.startsWith "-" || im.startsWith "+" then "" else "+"
  "(" ++ general z.re single ++ sign ++ im ++ "i)"

end StepGraph.Text
