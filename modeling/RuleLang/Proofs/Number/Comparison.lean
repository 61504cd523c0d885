import Mathlib

/-!
# The order of doubles

Both relations between doubles are read off one comparison, which has no answer where one side is not a
number.

* `Number.compare_swap`: the comparison in the other order.
* `Number.lt_iff`, `Number.beq_iff`: the relations through the comparison.
-/

namespace RuleLang.Number

open Float.Model (UnpackedFloat)

/-- Comparing in the other order gives the reverse. -/
theorem compare_swap (a b : UnpackedFloat) : b.compare a = (a.compare b).map Ordering.swap := by
  cases a with
  | notANumber => cases b <;> rfl
  | infinity s =>
      cases b with
      | infinity t => cases s <;> cases t <;> rfl
      | _ => cases s <;> rfl
  | zero s =>
      cases b with
      | infinity t => cases t <;> rfl
      | finite t => cases t <;> rfl
      | _ => rfl
  | finite s m e hm =>
      cases b with
      | infinity t => cases s <;> cases t <;> rfl
      | finite t m' e' hm' =>
          have hswap : (compare e' e).then (compare m' m) = ((compare e e').then (compare m m')).swap := by
            rw [Ordering.swap_then, ← Std.OrientedOrd.eq_swap, ← Std.OrientedOrd.eq_swap]
          cases s <;> cases t <;> simp [UnpackedFloat.compare, hswap]
      | _ => cases s <;> rfl

/-! ### The relations of doubles -/

/-- A double is less than another when the comparison of the two says so. -/
theorem lt_iff {x y : Float} : x < y ↔ x.toModel.unpack.compare y.toModel.unpack = some .lt := by
  change decide (x.toModel < y.toModel) = true ↔ _
  rw [decide_eq_true_iff]
  change (x.toModel.unpack.compare y.toModel.unpack == some .lt) = true ↔ _
  exact beq_iff_eq

/-- Doubles are equal when their comparison says so. -/
theorem beq_iff {x y : Float} : x == y ↔ x.toModel.unpack.compare y.toModel.unpack = some .eq := by
  change (x.toModel.unpack.compare y.toModel.unpack == some .eq) = true ↔ _
  exact beq_iff_eq

end RuleLang.Number
