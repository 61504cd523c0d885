/-!
# Weights

A weight estimates the cost of evaluating a tree. Weights add up to a limit that they never exceed.

* `Weight`: a cost up to `Weight.limit`.
* `Weight.ofNat`: a natural number, cut at the limit.
-/

namespace RuleLang

/-- The largest weight. -/
def weightLimit : Nat := Nat.pow 2 32 - 1

/-- The estimated cost of evaluating a tree. -/
structure Weight where
  toNat : Nat
  le_limit : toNat ≤ weightLimit

namespace Weight

/-- A natural number as a weight, cut at the limit. -/
def ofNat (n : Nat) : Weight :=
  ⟨min n weightLimit, Nat.min_le_right n weightLimit⟩

/-- The weight that a natural number is, if it is within the limit. -/
def ofNat? (n : Nat) : Option Weight :=
  if h : n ≤ weightLimit then some ⟨n, h⟩ else none

/-- The sum of two weights, cut at the limit. -/
def add (a b : Weight) : Weight :=
  ofNat (a.toNat + b.toNat)

/-- The larger of two weights. -/
def max (a b : Weight) : Weight :=
  if a.toNat ≤ b.toNat then b else a

instance : Zero Weight := ⟨ofNat 0⟩

instance : One Weight := ⟨ofNat 1⟩

instance : Add Weight := ⟨add⟩

instance : Inhabited Weight := ⟨0⟩

/-- The sum of weights, cut at the limit. -/
def sum (weights : List Weight) : Weight :=
  weights.foldl (· + ·) 0

/-- Weights are equal if their numbers are. -/
@[ext] theorem ext {a b : Weight} (h : a.toNat = b.toNat) : a = b := by
  cases a; cases b; cases h; rfl

instance : DecidableEq Weight := fun a b =>
  decidable_of_iff (a.toNat = b.toNat) ⟨ext, fun h => h ▸ rfl⟩

/-- A number becomes a weight by being cut off at the limit. -/
@[simp] theorem toNat_ofNat (n : Nat) : (ofNat n).toNat = min n weightLimit := rfl

/-- The number of the smallest weight. -/
@[simp] theorem toNat_zero : (0 : Weight).toNat = 0 := rfl

/-- The number of the weight of a leaf. -/
@[simp] theorem toNat_one : (1 : Weight).toNat = 1 := rfl

/-- A sum of weights is cut off at the limit. -/
@[simp] theorem toNat_add (a b : Weight) : (a + b).toNat = min (a.toNat + b.toNat) weightLimit := rfl

/-- The larger of two weights has the larger number. -/
theorem toNat_max (a b : Weight) : (max a b).toNat = Nat.max a.toNat b.toNat := by
  unfold max
  split <;> rename_i h
  · exact (Nat.max_eq_right h).symm
  · exact (Nat.max_eq_left (Nat.le_of_not_le h)).symm

end Weight

end RuleLang
