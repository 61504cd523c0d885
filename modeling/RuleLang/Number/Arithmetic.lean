import RuleLang.Number.Binary64

/-!
# Arithmetic beyond the four operations

* `Number.truncate`: a number without its fraction.
* `Number.remainder`: the remainder of a truncated division, exactly.
* `Number.euclideanRemainder`: the remainder that is not negative.
* `Number.toUInt32`, `Number.toInt32`: the whole part modulo `2 ^ 32`, unsigned and signed.
* `Number.power`: powers, where an undefined exponent or `±1` to an infinite power is not a number.
-/

namespace RuleLang.Number

/-- The whole part of a dyadic, with its sign. -/
def Dyadic.truncate (d : Dyadic) : Int :=
  let magnitude : Int :=
    if d.exponent < 0 then ((d.mantissa / Nat.pow 2 (-d.exponent).toNat : Nat) : Int)
    else ((d.mantissa * Nat.pow 2 d.exponent.toNat : Nat) : Int)
  if d.negative then -magnitude else magnitude

/-- A number without its fraction. -/
def truncate (x : Float) : Float :=
  match parts x with
  | .finite d => ofRatio d.negative d.truncate.natAbs 1
  | _ => x

/-- The remainder of `x` by `y` with the sign of `x`. Both are brought to the smaller of the two
exponents, so that the division is one of naturals. -/
def Dyadic.remainder (x y : Dyadic) : Dyadic :=
  let e := min x.exponent y.exponent
  let a := x.mantissa * Nat.pow 2 (x.exponent - e).toNat
  let b := y.mantissa * Nat.pow 2 (y.exponent - e).toNat
  ⟨x.negative, a % b, e⟩

/-- The remainder of the division that truncates. It is not a number for an infinite dividend or a
divisor of zero; an infinite divisor leaves the dividend. -/
def remainder (x y : Float) : Float :=
  match parts x, parts y with
  | .nan, _ => nan
  | _, .nan => nan
  | .infinite _, _ => nan
  | .finite _, .infinite _ => x
  | .finite a, .finite b => if b.mantissa = 0 then nan else ofDyadic (a.remainder b)

/-- The remainder that is not negative, up to rounding: a negative one is brought up by the magnitude of
the divisor. -/
def euclideanRemainder (x y : Float) : Float :=
  let r := remainder x y
  if r < ofInt 0 then r + y.abs else r

/-- How many words of 32 bits there are. -/
def wordSpan : Float :=
  ofInt (Int.pow 2 32)

/-- The whole part modulo `2 ^ 32`; zero for what is not finite. The conversion at the end drops a
fraction and clamps what is out of range; here it meets neither. -/
def toUInt32 (x : Float) : UInt32 :=
  if isFinite x then (euclideanRemainder (truncate x) wordSpan).toUInt32 else 0

/-- The whole part modulo `2 ^ 32`, read in two's complement; zero for what is not finite. -/
def toInt32 (x : Float) : Int32 :=
  (toUInt32 x).toInt32

/-- The number of a signed word. -/
def ofInt32 (x : Int32) : Float :=
  ofInt x.toInt

/-- The number of an unsigned word. -/
def ofUInt32 (x : UInt32) : Float :=
  ofInt x.toNat

/-- A number whose magnitude is one. -/
def isUnit (x : Float) : Bool :=
  x == ofInt 1 || x == ofInt (-1)

/-- Powers. An exponent that is not a number gives no number, also for base one, and so does `±1` to
an infinite power. -/
def power (base exponent : Float) : Float :=
  match parts exponent with
  | .nan => nan
  | .infinite _ => if isUnit base then nan else Float.pow base exponent
  | .finite _ => Float.pow base exponent

end RuleLang.Number
