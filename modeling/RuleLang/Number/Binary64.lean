/-!
# Doubles as exact numbers

A double is taken apart into a sign, a natural mantissa and a power of two, and put together again
from an exact quotient by rounding to the nearest one, ties to the even mantissa. Everything that
needs an exact account of a number (its digits, its remainder, its 32-bit image) goes through these
two functions.

* `Number.Parts`, `Number.parts`: what a double stands for.
* `Number.ofRatio`: the double nearest to a signed quotient of naturals.
* `Number.ofDecimal`: the double nearest to a signed decimal.
-/

namespace RuleLang.Number

/-- A finite number `± mantissa * 2 ^ exponent`. -/
structure Dyadic where
  negative : Bool
  mantissa : Nat
  exponent : Int

/-- What a double stands for. -/
inductive Parts where
  | nan
  | infinite (negative : Bool)
  | finite (value : Dyadic)

/-- The exponent of the smallest doubles. -/
def leastExponent : Int := -1074

/-- The first 52 bits of a double are its fraction. -/
def fractionSpan : Nat := Nat.pow 2 52

/-- The bits of positive infinity; every larger pattern below the sign is not a number. -/
def infinityBits : Nat := 2047 * fractionSpan

/-- Takes a double apart. Doubles with the least exponent have no hidden leading bit. -/
def parts (x : Float) : Parts :=
  let bits := x.toBits.toNat
  let negative := decide (Nat.pow 2 63 ≤ bits)
  let biased := bits / fractionSpan % 2048
  let fraction := bits % fractionSpan
  if biased = 2047 then
    if fraction = 0 then .infinite negative else .nan
  else if biased = 0 then
    .finite ⟨negative, fraction, leastExponent⟩
  else
    .finite ⟨negative, fractionSpan + fraction, leastExponent + (biased - 1 : Nat)⟩

/-- The quotient rounded to the nearest natural, ties to the even one. -/
def roundHalfEven (num den : Nat) : Nat :=
  let q := num / den
  let r := num % den
  if 2 * r < den then q
  else if den < 2 * r then q + 1
  else if q % 2 = 0 then q
  else q + 1

/-- The quotient `num / den / 2 ^ e` as a fraction of naturals. -/
def scaleDown (num den : Nat) (e : Int) : Nat × Nat :=
  if e < 0 then (num * Nat.pow 2 (-e).toNat, den) else (num, den * Nat.pow 2 e.toNat)

/-- The exponent at which the quotient has 53 binary digits, or the least exponent if that is
larger. -/
def exponentOf (num den : Nat) : Int :=
  let guess : Int := (num.log2 : Int) - (den.log2 : Int) - 53
  let scaled := scaleDown num den guess
  let e := if Nat.pow 2 53 ≤ scaled.1 / scaled.2 then guess + 1 else guess
  max e leastExponent

/-- The bits of the nonnegative double nearest to `num / den`. A mantissa that rounds up to the next
power of two carries into the exponent by the addition. -/
def nearestBits (num den : Nat) : Nat :=
  if num = 0 then 0
  else
    let e := exponentOf num den
    let scaled := scaleDown num den e
    min infinityBits ((e - leastExponent).toNat * fractionSpan + roundHalfEven scaled.1 scaled.2)

/-- The double nearest to `± num / den`. -/
def ofRatio (negative : Bool) (num den : Nat) : Float :=
  Float.ofBits (UInt64.ofNat ((if negative then Nat.pow 2 63 else 0) + nearestBits num den))

/-- The double nearest to `± mantissa * 2 ^ exponent`. -/
def ofDyadic (d : Dyadic) : Float :=
  if d.exponent < 0 then ofRatio d.negative d.mantissa (Nat.pow 2 (-d.exponent).toNat)
  else ofRatio d.negative (d.mantissa * Nat.pow 2 d.exponent.toNat) 1

/-- The double nearest to an integer; zero is positive. -/
def ofInt (i : Int) : Float :=
  ofRatio (decide (i < 0)) i.natAbs 1

/-- Positive or negative infinity. -/
def infinity (negative : Bool) : Float :=
  Float.ofBits (UInt64.ofNat ((if negative then Nat.pow 2 63 else 0) + infinityBits))

/-- The double that is not a number. -/
def nan : Float :=
  Float.ofBits 0x7ff8000000000000

/-- The double nearest to `± digits * 10 ^ exponent`. Magnitudes that are certainly beyond the range
of doubles are answered without the power of ten. -/
def ofDecimal (negative : Bool) (digits : Nat) (exponent : Int) : Float :=
  if digits = 0 then ofRatio negative 0 1
  else if 400 < exponent then infinity negative
  else if (digits.log2 : Int) + 1 + 3 * exponent < -1080 then ofRatio negative 0 1
  else if exponent < 0 then ofRatio negative digits (Nat.pow 10 (-exponent).toNat)
  else ofRatio negative (digits * Nat.pow 10 exponent.toNat) 1

/-- A number that is neither infinite nor undefined. -/
def isFinite (x : Float) : Bool :=
  match parts x with
  | .finite _ => true
  | _ => false

end RuleLang.Number
