/-! Binary floating-point numbers of 64 bits, in exact arithmetic. -/

namespace Lineage.Number

/-- A number with a significand of at most 53 bits: `significand * 2 ^ exponent`, up to its sign.
The exponent is at least -1074, and only there is the significand shorter than 53 bits. -/
inductive Binary64 where
  | finite (negative : Bool) (significand : Nat) (exponent : Int)
  | infinite (negative : Bool)
  | nan
  deriving DecidableEq, Repr

/-- The whole number nearest to a quotient; of two equally near, the even one. -/
def roundQuotient (numerator denominator : Nat) : Nat :=
  let quotient := numerator / denominator
  let twice := 2 * (numerator % denominator)
  if twice < denominator then quotient
  else if twice == denominator then quotient + quotient % 2
  else quotient + 1

/-- A power of two. -/
def twoTo (exponent : Nat) : Nat :=
  Nat.pow 2 exponent

/-- A power of ten. -/
def tenTo (exponent : Nat) : Nat :=
  Nat.pow 10 exponent

/-- A quotient multiplied by a power of two, as a numerator and a denominator. -/
def scaleByTwo (numerator denominator : Nat) (exponent : Int) : Nat × Nat :=
  (numerator * twoTo exponent.toNat, denominator * twoTo (-exponent).toNat)

namespace Binary64

/-- The exponent that gives a quotient a significand of 53 bits, or the least exponent there is. -/
def exponentFor (numerator denominator : Nat) : Int :=
  let guess : Int := (numerator.log2 : Int) - denominator.log2 - 52
  let (scaled, unit) := scaleByTwo numerator denominator (-guess)
  max (if scaled < unit * twoTo 52 then guess - 1 else guess) (-1074)

/-- The number nearest to a quotient of whole numbers; of two equally near, the one with the even
significand. -/
def ofQuotient (negative : Bool) (numerator denominator : Nat) : Binary64 :=
  if numerator == 0 then .finite negative 0 (-1074)
  else
    let exponent := exponentFor numerator denominator
    let (scaled, unit) := scaleByTwo numerator denominator (-exponent)
    let rounded := roundQuotient scaled unit
    -- Rounding up can carry into a further bit.
    let (significand, final) :=
      if rounded == twoTo 53 then (twoTo 52, exponent + 1) else (rounded, exponent)
    if 971 < final then .infinite negative else .finite negative significand final

/-- How many decimal digits a whole number has. -/
def digitCount (value : Nat) : Nat :=
  (Nat.toDigits 10 value).length

/-- The number nearest to `digits * 10 ^ exponent`. Beyond 10 to the 310th all is infinite, and
below 10 to the -330th all is zero. -/
def ofDecimal (negative : Bool) (digits : Nat) (exponent : Int) : Binary64 :=
  let magnitude := exponent + digitCount digits
  if digits == 0 || magnitude < -330 then .finite negative 0 (-1074)
  else if 310 < magnitude then .infinite negative
  else ofQuotient negative (digits * tenTo exponent.toNat) (tenTo (-exponent).toNat)

end Binary64

end Lineage.Number
