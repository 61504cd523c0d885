import RuleLang.Number.Reading

/-!
# From written digits to a double

A decimal is written as whole digits, fraction digits and an exponent. There are two ways to make a
double of it.

* `Number.readNearest`: the double nearest to the decimal.
* `Number.readBounded`: the double that is computed from a significand of 64 bits and a power of ten.
  Both are doubles themselves, and every step rounds, so that long decimals and far exponents may miss
  the nearest double.
-/

namespace RuleLang.Number

/-- A way to make a double of a decimal: of its sign, its whole digits, its fraction digits and its
exponent. -/
abbrev DecimalReading := Bool → List Char → List Char → Int → Float

/-- The double nearest to a decimal. -/
def readNearest : DecimalReading := fun negative whole fraction exponent =>
  ofDecimal negative (naturalOfDigits (whole ++ fraction)) (exponent - fraction.length)

/-- Significands are smaller than this. -/
def significandSpan : Nat := Nat.pow 2 64

/-- Adds digits to a significand up to the first that does not fit, and hands over the digits that are
left. -/
def gather (significand : Nat) : List Char → Nat × List Char
  | [] => (significand, [])
  | c :: rest =>
    let next := significand * 10 + (c.toNat - '0'.toNat)
    if next < significandSpan then gather next rest else (significand, c :: rest)

/-- The largest exponent of a power of ten that is a double. -/
def largestPower : Nat := 308

/-- The double nearest to a power of ten. -/
def powerOfTen (n : Nat) : Float :=
  ofDecimal false 1 n

/-- A nonnegative double times a power of ten, by one multiplication or division. A number that needs
several divisions is taken down by the largest power first; zero stays zero. -/
def scaleByTen (x : Float) (exponent : Int) : Float :=
  if exponent.natAbs ≤ largestPower then
    if 0 ≤ exponent then x * powerOfTen exponent.natAbs else x / powerOfTen exponent.natAbs
  else if x == ofInt 0 then x
  else if 0 ≤ exponent then infinity false
  else scaleByTen (x / powerOfTen largestPower) (exponent + largestPower)
termination_by exponent.natAbs
decreasing_by
  simp only [largestPower] at *
  omega

/-- The double that is computed from a significand and a power of ten. The whole digits that do not fit
the significand count as zeros, and the fraction digits that do not fit count as nothing. -/
def readBounded : DecimalReading := fun negative whole fraction exponent =>
  let (integral, zeros) := gather 0 whole
  let (significand, dropped) := gather integral fraction
  let places : Int := zeros.length - (fraction.length - dropped.length : Nat)
  let x := scaleByTen (ofInt significand) (exponent + places)
  if negative then -x else x

end RuleLang.Number
