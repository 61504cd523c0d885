import RuleLang.Number.Shortest

/-!
# The text of a number

A finite number is written with its shortest digits, either positionally or as one digit, a fraction
and a power of ten. Where one form ends and the other begins is a `NumberFormat`.

* `Number.NumberFormat`: the decisions of a format.
* `Number.NumberFormat.render`: the text of a decimal in a format.
* `Number.plainFormat`: the format of values shown as text.
* `Number.jsonFormat`: the format of fractions and large numbers in JSON.
-/

namespace RuleLang.Number

/-- The largest magnitude up to which every integer is a double. -/
def largestExactInteger : Nat := Nat.pow 2 53 - 1

/-- How a decimal is laid out. The places are powers of ten of the leading digit. -/
structure NumberFormat where
  /-- The smallest leading place that is written positionally. -/
  least : Int
  /-- The largest leading place that is written positionally. -/
  most : Int
  /-- What follows the digits of a whole number in positional form. -/
  wholeSuffix : String
  /-- Which of two equally near decimals of the same length is written. -/
  tie : Tie

/-- Values are positional from `1e-6` up to but not including `1e21`; whole numbers have no point. -/
def plainFormat : NumberFormat := ⟨-6, 20, "", .up⟩

/-- JSON numbers are positional from `1e-5` up to but not including `1e16`; whole numbers keep a
point. -/
def jsonFormat : NumberFormat := ⟨-5, 15, ".0", .even⟩

/-- The decimal digits of a natural number. -/
def decimalDigits (n : Nat) : List Char :=
  Nat.toDigits 10 n

/-- The text of `d` without a sign. -/
def NumberFormat.render (f : NumberFormat) (d : Decimal) : String :=
  let digits := decimalDigits d.digits
  let place : Int := d.exponent + digits.length - 1
  if f.least ≤ place && place ≤ f.most then
    if 0 ≤ d.exponent then
      String.ofList (digits ++ List.replicate d.exponent.toNat '0') ++ f.wholeSuffix
    else if 0 ≤ place then
      let whole := (place + 1).toNat
      String.ofList (digits.take whole ++ '.' :: digits.drop whole)
    else
      String.ofList ('0' :: '.' :: List.replicate (-place - 1).toNat '0' ++ digits)
  else
    let fraction := match digits.drop 1 with
      | [] => []
      | rest => '.' :: rest
    let sign := if place < 0 then '-' else '+'
    String.ofList (digits.take 1 ++ fraction ++ 'e' :: sign :: decimalDigits place.natAbs)

/-- The text of a nonzero finite number in a format. -/
def NumberFormat.renderDyadic (f : NumberFormat) (d : Dyadic) : String :=
  (if d.negative then "-" else "") ++ f.render (shortest f.tie d.mantissa d.exponent)

/-- The natural number that a dyadic stands for up to its sign, when it is whole. -/
def Dyadic.wholeMagnitude? (d : Dyadic) : Option Nat :=
  if 0 ≤ d.exponent then some (d.mantissa * Nat.pow 2 d.exponent.toNat)
  else
    let unit := Nat.pow 2 (-d.exponent).toNat
    if d.mantissa % unit = 0 then some (d.mantissa / unit) else none

/-- The integer that a number is, when it is one of magnitude up to `largestExactInteger`. Negative
zero is the integer zero. -/
def exactInteger? (x : Float) : Option Int :=
  match parts x with
  | .finite d =>
    match d.wholeMagnitude? with
    | some n =>
      if n ≤ largestExactInteger then some (if d.negative then -(n : Int) else n) else none
    | none => none
  | _ => none

/-- The text of an integer. -/
def integerText (i : Int) : String :=
  String.ofList (if i < 0 then '-' :: decimalDigits i.natAbs else decimalDigits i.natAbs)

/-- The text of a number as a value. -/
def text (x : Float) : String :=
  match exactInteger? x with
  | some i => integerText i
  | none =>
    match parts x with
    | .nan => "NaN"
    | .infinite negative => if negative then "-Infinity" else "Infinity"
    | .finite d => plainFormat.renderDyadic d

/-- The JSON text of a number that JSON does not hold as an integer. Zero keeps its sign, and what is
not finite is null. -/
def jsonText (x : Float) : String :=
  match parts x with
  | .finite d =>
    if d.mantissa = 0 then (if d.negative then "-0.0" else "0.0") else jsonFormat.renderDyadic d
  | _ => "null"

end RuleLang.Number
