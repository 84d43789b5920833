import Lineage.Number.Binary64

/-! The shortest decimal that reads back as a given binary number. -/

namespace Lineage.Number

/-- A decimal number `digits * 10 ^ exponent`. -/
structure Decimal where
  digits : Nat
  exponent : Int
  deriving DecidableEq, Repr

/-- The numbers that round to a given one lie between two bounds. All three are multiples of one
unit, which is a quotient of whole numbers. -/
structure Rounding where
  low : Nat
  value : Nat
  high : Nat
  closed : Bool
  unitNumerator : Nat
  unitDenominator : Nat

/-- The bounds lie half way to the neighbours. Below a power of two the neighbour is nearer, and the
bounds themselves round to an even significand. -/
def roundingOf (significand : Nat) (exponent : Int) : Rounding :=
  let nearer := significand == twoTo 52 && -1074 < exponent
  let (unitNumerator, unitDenominator) := scaleByTwo 1 1 (exponent - 2)
  { low := 4 * significand - (if nearer then 1 else 2)
    value := 4 * significand
    high := 4 * significand + 2
    closed := significand % 2 == 0
    unitNumerator
    unitDenominator }

/-- The power of ten that is just not above a positive quotient. -/
def floorLog10 (numerator denominator : Nat) : Int :=
  let guess : Int := (Binary64.digitCount numerator : Int) - Binary64.digitCount denominator
  let atLeast := denominator * tenTo guess.toNat ≤ numerator * tenTo (-guess).toNat
  if atLeast then guess else guess - 1

/-- Whether a decimal rounds to the number in question. -/
def Rounding.holds (rounding : Rounding) (decimal : Decimal) : Bool :=
  let scaled := decimal.digits * tenTo decimal.exponent.toNat * rounding.unitDenominator
  let unit := rounding.unitNumerator * tenTo (-decimal.exponent).toNat
  if rounding.closed then rounding.low * unit ≤ scaled && scaled ≤ rounding.high * unit
  else rounding.low * unit < scaled && scaled < rounding.high * unit

/-- The decimals next to the value below and above on the grid of a power of ten, those that round
to it, the nearer first; of two equally near, the even one first. -/
def Rounding.onGrid (rounding : Rounding) (exponent : Int) : List Decimal :=
  let numerator := rounding.value * rounding.unitNumerator * tenTo (-exponent).toNat
  let denominator := rounding.unitDenominator * tenTo exponent.toNat
  let below := numerator / denominator
  let nearest := roundQuotient numerator denominator
  let other := if nearest == below then below + 1 else below
  [Decimal.mk nearest exponent, Decimal.mk other exponent].filter rounding.holds

/-- The decimal with the fewest digits that reads back as `significand * 2 ^ exponent`, of those the
nearest. Seventeen digits always suffice. -/
def shortest (significand : Nat) (exponent : Int) : Decimal :=
  let rounding := roundingOf significand exponent
  let top := floorLog10 (rounding.value * rounding.unitNumerator) rounding.unitDenominator
  let found := (List.range 17).findSome? fun (more : Nat) => (rounding.onGrid (top - more)).head?
  found.getD ⟨0, 0⟩

/-- The same number without zeros at the end of its digits. The first argument bounds their
number. -/
def Decimal.stripZeros : Nat → Decimal → Decimal
  | 0, decimal => decimal
  | more + 1, decimal =>
    if decimal.digits != 0 && decimal.digits % 10 == 0 then
      stripZeros more ⟨decimal.digits / 10, decimal.exponent + 1⟩
    else decimal

/-- An exponent with its sign and at least two digits. -/
def exponentText (exponent : Int) : String :=
  let digits := toString exponent.natAbs
  (if exponent < 0 then "-" else "+") ++ (if digits.length < 2 then "0" ++ digits else digits)

/-- A decimal in words: positional from 0.0001 up to 10 to the 16th and always with a point,
scientific elsewhere. -/
def Decimal.text (decimal : Decimal) : String :=
  let short := decimal.stripZeros 20
  let digits := Nat.toDigits 10 short.digits
  -- The point stands behind this many of the digits.
  let point : Int := short.exponent + digits.length
  if 16 < point || point < -3 then
    let fraction := digits.drop 1
    String.ofList (digits.take 1 ++ (if fraction.isEmpty then [] else '.' :: fraction)) ++
      "e" ++ exponentText (point - 1)
  else if point ≤ 0 then
    String.ofList ('0' :: '.' :: List.replicate (-point).toNat '0' ++ digits)
  else if digits.length ≤ point.toNat then
    String.ofList (digits ++ List.replicate (point.toNat - digits.length) '0' ++ ['.', '0'])
  else String.ofList (digits.take point.toNat ++ '.' :: digits.drop point.toNat)

/-- A binary number in words. -/
def Binary64.text : Binary64 → String
  | .nan => "nan"
  | .infinite negative => if negative then "-inf" else "inf"
  | .finite negative significand exponent =>
    let sign := if negative then "-" else ""
    if significand == 0 then sign ++ "0.0" else sign ++ (shortest significand exponent).text

end Lineage.Number
