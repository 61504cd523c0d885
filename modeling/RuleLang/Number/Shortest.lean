import RuleLang.Number.Binary64

/-!
# The fewest digits that read back

A double is written with as few significant digits as possible so that reading them gives the same
double, and among the decimals of that length the one nearest to it is taken. The search runs over
the decimal grids from coarse to fine; on each grid only the two neighbours of the number can lie in
the interval of quotients that round to it.

* `Number.Decimal`: a natural and a power of ten.
* `Number.Tie`: which neighbour is taken when both are equally near.
* `Number.shortest`: the decimal chosen for a positive finite double.
-/

namespace RuleLang.Number

/-- The number `digits * 10 ^ exponent`. -/
structure Decimal where
  digits : Nat
  exponent : Int

/-- Which of two equally near neighbours is taken. -/
inductive Tie where
  /-- The one of larger magnitude. -/
  | up
  /-- The one whose last digit is even. -/
  | even

/-- Whether the lower of two equally near neighbours is taken. -/
def Tie.takesLower (tie : Tie) (below : Nat) : Bool :=
  match tie with
  | .up => false
  | .even => below % 2 == 0

/-- Numerator and denominator of `base ^ e`. -/
def powerRatio (base : Nat) (e : Int) : Nat × Nat :=
  if e < 0 then (1, Nat.pow base (-e).toNat) else (Nat.pow base e.toNat, 1)

/-- The numbers that round to `mantissa * 2 ^ exponent`, in quarters of the last binary place: the
ends, and whether they belong to it. The lower half is shorter at a power of two. -/
def roundingInterval (mantissa : Nat) (exponent : Int) : Nat × Nat × Bool :=
  let lower := if mantissa = Nat.pow 2 52 && decide (leastExponent < exponent) then 1 else 2
  (4 * mantissa - lower, 4 * mantissa + 2, mantissa % 2 == 0)

/-- The neighbour of `m * 2 ^ exponent` on the grid of multiples of `10 ^ k` that rounds to it, the
nearer one when both do, and the lower neighbour with `false` when none does. -/
def onGrid (tie : Tie) (m : Nat) (exponent k : Int) : Nat × Bool :=
  let quarter := powerRatio 2 (exponent - 2)
  let step := powerRatio 10 k
  let grid := step.1 * quarter.2
  let unit := quarter.1 * step.2
  let (low, high, closed) := roundingInterval m exponent
  let inside := fun (d : Nat) =>
    if closed then decide (low * unit ≤ d * grid) && decide (d * grid ≤ high * unit)
    else decide (low * unit < d * grid) && decide (d * grid < high * unit)
  let value := 4 * m * unit
  let below := value / grid
  match inside below, inside (below + 1) with
  | true, true =>
    let down := value - below * grid
    let up := (below + 1) * grid - value
    if down < up || (down == up && tie.takesLower below) then (below, true) else (below + 1, true)
  | true, false => (below, true)
  | false, true => (below + 1, true)
  | false, false => (below, false)

/-- Tries the grids `10 ^ k`, `10 ^ (k - 1)`, … and takes the first with a hit. -/
def firstGrid (tie : Tie) (mantissa : Nat) (exponent : Int) : Nat → Int → Decimal
  | 0, k => ⟨(onGrid tie mantissa exponent k).1, k⟩
  | steps + 1, k =>
    match onGrid tie mantissa exponent k with
    | (d, true) => ⟨d, k⟩
    | (_, false) => firstGrid tie mantissa exponent steps (k - 1)

/-- The shortest decimal that rounds to `mantissa * 2 ^ exponent`. The first grid is coarser than the
number, and seventeen digits are always enough. -/
def shortest (tie : Tie) (mantissa : Nat) (exponent : Int) : Decimal :=
  let binaryPlace : Int := (mantissa.log2 : Int) + exponent + 1
  firstGrid tie mantissa exponent 21 (binaryPlace * 30103 / 100000 + 1)

end RuleLang.Number
