import Mathlib.Data.List.Nodup

/-!
# Lists merged into one

What several parties write to one log is their own lists merged: each list keeps its order, and nothing
is added or lost. What one party wrote is found again by looking for what only it can have written.

* `Shuffle`: two lists merged. `Shuffle.exists_prefix`: what has been merged so far.
* `Interleaves`: any number of lists merged.
* `Interleaves.filter_eq`: the list of one party, found again.
-/

namespace RuleLang

variable {α ι : Type}

/-- Two lists merged into one. -/
inductive Shuffle : List α → List α → List α → Prop
  | nil : Shuffle [] [] []
  | left {a : α} {xs ys zs : List α} (h : Shuffle xs ys zs) : Shuffle (a :: xs) ys (a :: zs)
  | right {a : α} {xs ys zs : List α} (h : Shuffle xs ys zs) : Shuffle xs (a :: ys) (a :: zs)

namespace Shuffle

variable {xs ys zs : List α}

/-- Merging nothing into a list leaves the list. -/
theorem nil_left (ys : List α) : Shuffle [] ys ys := by
  induction ys with
  | nil => exact .nil
  | cons y ys ih => exact .right ih

/-- Merging a list into nothing leaves the list. -/
theorem nil_right (xs : List α) : Shuffle xs [] xs := by
  induction xs with
  | nil => exact .nil
  | cons x xs ih => exact .left ih

/-- One list after the other is a way to merge them. -/
theorem append (xs ys : List α) : Shuffle xs ys (xs ++ ys) := by
  induction xs with
  | nil => exact .nil_left ys
  | cons x xs ih => exact .left ih

/-- What comes of merging nothing into a list is the list. -/
theorem eq_of_nil_left (h : Shuffle [] ys zs) : zs = ys := by
  generalize hxs : ([] : List α) = xs at h
  induction h with
  | nil => rfl
  | left h => cases hxs
  | right h ih => rw [ih hxs]

/-- What comes of merging a list into nothing is the list. -/
theorem eq_of_nil_right (h : Shuffle xs [] zs) : zs = xs := by
  generalize hys : ([] : List α) = ys at h
  induction h with
  | nil => rfl
  | left h ih => rw [ih hys]
  | right h => cases hys

/-- It does not matter which of two lists is merged into the other. -/
theorem symm (h : Shuffle xs ys zs) : Shuffle ys xs zs := by
  induction h with
  | nil => exact .nil
  | left h ih => exact .right ih
  | right h ih => exact .left ih

/-- What has been merged so far is what has been written so far, merged. -/
theorem exists_prefix (h : Shuffle xs ys zs) {ws : List α} (hws : ws <+: zs) :
    ∃ us vs, us <+: xs ∧ vs <+: ys ∧ Shuffle us vs ws := by
  induction h generalizing ws with
  | nil =>
      obtain rfl := List.prefix_nil.mp hws
      exact ⟨[], [], List.nil_prefix, List.nil_prefix, .nil⟩
  | @left a xs ys zs h ih =>
      rcases List.prefix_cons_iff.mp hws with rfl | ⟨ws, rfl, htail⟩
      · exact ⟨[], [], List.nil_prefix, List.nil_prefix, .nil⟩
      · obtain ⟨us, vs, hus, hvs, merge⟩ := ih htail
        exact ⟨a :: us, vs, List.cons_prefix_cons.mpr ⟨rfl, hus⟩, hvs, .left merge⟩
  | @right a xs ys zs h ih =>
      rcases List.prefix_cons_iff.mp hws with rfl | ⟨ws, rfl, htail⟩
      · exact ⟨[], [], List.nil_prefix, List.nil_prefix, .nil⟩
      · obtain ⟨us, vs, hus, hvs, merge⟩ := ih htail
        exact ⟨us, a :: vs, hus, List.cons_prefix_cons.mpr ⟨rfl, hvs⟩, .right merge⟩

/-- The merged list has the members of both. -/
theorem mem_iff {a : α} (h : Shuffle xs ys zs) : a ∈ zs ↔ a ∈ xs ∨ a ∈ ys := by
  induction h with
  | nil => simp
  | left h ih => simp [ih, or_assoc]
  | right h ih => simp [ih, or_left_comm]

/-- What is picked out of merged lists is what is picked out of each, merged. -/
theorem filter (h : Shuffle xs ys zs) (p : α → Bool) :
    Shuffle (xs.filter p) (ys.filter p) (zs.filter p) := by
  induction h with
  | nil => exact .nil
  | @left a xs ys zs h ih =>
      rw [List.filter_cons, List.filter_cons]
      split
      · exact .left ih
      · exact ih
  | @right a xs ys zs h ih =>
      rw [List.filter_cons, List.filter_cons]
      split
      · exact .right ih
      · exact ih

end Shuffle

/-- Any number of lists merged into one. -/
inductive Interleaves : List (List α) → List α → Prop
  | nil : Interleaves [] []
  | cons {xs ys zs : List α} {xss : List (List α)} (merge : Shuffle xs ys zs)
      (rest : Interleaves xss ys) : Interleaves (xs :: xss) zs

namespace Interleaves

variable {xss : List (List α)} {zs : List α}

/-- One list after the other is a way to merge them. -/
theorem flatten (xss : List (List α)) : Interleaves xss xss.flatten := by
  induction xss with
  | nil => exact .nil
  | cons xs xss ih => exact .cons (.append xs xss.flatten) ih

/-- What stands in merged lists stands in one of them. -/
theorem exists_mem {a : α} (h : Interleaves xss zs) (ha : a ∈ zs) : ∃ xs ∈ xss, a ∈ xs := by
  induction h with
  | nil => exact absurd ha List.not_mem_nil
  | cons merge rest ih =>
      rcases merge.mem_iff.mp ha with ha | ha
      · exact ⟨_, List.mem_cons_self, ha⟩
      · obtain ⟨xs, hxs, ha⟩ := ih ha
        exact ⟨xs, List.mem_cons_of_mem _ hxs, ha⟩

/-- What stands in one of the lists stands in the merged one. -/
theorem mem_of_mem {a : α} {xs : List α} (h : Interleaves xss zs) (hxs : xs ∈ xss) (ha : a ∈ xs) :
    a ∈ zs := by
  induction h with
  | nil => exact absurd hxs List.not_mem_nil
  | cons merge rest ih =>
      rw [merge.mem_iff]
      rcases List.mem_cons.mp hxs with rfl | hxs
      · exact .inl ha
      · exact .inr (ih hxs)

variable {items : List ι} {f : ι → List α} {p : α → Bool}

/-- Where no party wrote anything of a kind, nothing of the kind is in the log. -/
theorem filter_eq_nil (h : Interleaves (items.map f) zs)
    (none : ∀ i ∈ items, (f i).filter p = []) : zs.filter p = [] := by
  rw [List.filter_eq_nil_iff]
  intro a ha
  obtain ⟨xs, hxs, ha⟩ := h.exists_mem ha
  obtain ⟨i, hi, rfl⟩ := List.mem_map.mp hxs
  exact List.filter_eq_nil_iff.mp (none i hi) a ha

/-- Where one party alone wrote what is of a kind, its share is what is of the kind in the log. -/
theorem filter_eq {i : ι} (h : Interleaves (items.map f) zs) (distinct : items.Nodup) (hi : i ∈ items)
    (others : ∀ j ∈ items, j ≠ i → (f j).filter p = []) : zs.filter p = (f i).filter p := by
  induction items generalizing zs with
  | nil => exact absurd hi List.not_mem_nil
  | cons j rest ih =>
      rw [List.nodup_cons] at distinct
      rw [List.map_cons] at h
      cases h with
      | cons merge merged =>
          have hmerge := merge.filter p
          rcases List.mem_cons.mp hi with rfl | hi
          · rw [merged.filter_eq_nil fun k hk => others k (List.mem_cons_of_mem _ hk)
              fun hki => distinct.1 (hki ▸ hk)] at hmerge
            exact hmerge.eq_of_nil_right
          · have hji : j ≠ i := fun hji => distinct.1 (hji ▸ hi)
            rw [others j List.mem_cons_self hji] at hmerge
            rw [hmerge.eq_of_nil_left]
            exact ih merged distinct.2 hi fun k hk => others k (List.mem_cons_of_mem _ hk)

end Interleaves

end RuleLang
