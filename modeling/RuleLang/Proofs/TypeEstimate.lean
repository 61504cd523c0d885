import Mathlib.Data.List.Basic
import RuleLang.TypeEstimate

/-!
# Unions of type estimates

A union keeps the names of its estimates in the order in which they are first seen, each of them once. The
names that a group of estimates contributes are the same whether the group is merged beforehand or not.

* `TypeEstimate.union_eq`: the names of a union are those of its estimates, without duplicates.
* `TypeEstimate.union_map_union`: groups of estimates may be merged first.
* `TypeEstimate.union_eq_one_iff`: which unions are a single name.
* `TypeEstimate.IsUnion`: estimates that are a union already.
-/

namespace RuleLang

/-! ### Lists without duplicates -/

section Duplicates

variable {α : Type} [BEq α] [LawfulBEq α]

/-- Taking out what is not there changes nothing. -/
theorem filter_ne_of_notMem {x : α} {xs : List α} (h : x ∉ xs) :
    (xs.filter fun y => !y == x) = xs := by
  rw [List.filter_eq_self]
  intro y hy
  have hne : y ≠ x := fun heq => h (heq ▸ hy)
  simpa using hne

/-- What is dropped from a list may be dropped before or after its duplicates are. -/
theorem eraseDups_filter (p : α → Bool) (xs : List α) :
    (xs.filter p).eraseDups = xs.eraseDups.filter p := by
  match xs with
  | [] => rfl
  | x :: xs =>
      have hrest := eraseDups_filter p (xs.filter fun y => !y == x)
      rw [List.eraseDups_cons]
      by_cases hx : p x
      · rw [List.filter_cons_of_pos hx, List.filter_cons_of_pos hx, List.eraseDups_cons, List.filter_comm,
          hrest]
      · have habsent : x ∉ xs.filter p := fun h => hx (List.mem_filter.mp h).2
        rw [List.filter_cons_of_neg hx, List.filter_cons_of_neg hx, ← hrest, ← List.filter_comm,
          filter_ne_of_notMem habsent]
termination_by xs.length
decreasing_by exact Nat.lt_succ_of_le (List.length_filter_le _ _)

/-- Without duplicates, every member stands there once. -/
theorem nodup_eraseDups (xs : List α) : xs.eraseDups.Nodup := by
  match xs with
  | [] => exact List.nodup_nil
  | x :: xs =>
      rw [List.eraseDups_cons, List.nodup_cons]
      exact ⟨by simp, nodup_eraseDups _⟩
termination_by xs.length
decreasing_by exact Nat.lt_succ_of_le (List.length_filter_le _ _)

/-- A list without duplicates has none to lose. -/
theorem eraseDups_of_nodup {xs : List α} (h : xs.Nodup) : xs.eraseDups = xs := by
  induction xs with
  | nil => rfl
  | cons x xs ih =>
      rw [List.nodup_cons] at h
      rw [List.eraseDups_cons, filter_ne_of_notMem h.1, ih h.2]

/-- The duplicates of a joined list are those of its parts, and those that stand in both. -/
theorem eraseDups_append_congr {as as' bs bs' : List α} (ha : as.eraseDups = as'.eraseDups)
    (hb : bs.eraseDups = bs'.eraseDups) : (as ++ bs).eraseDups = (as' ++ bs').eraseDups := by
  have hmem (b : α) : as.contains b = as'.contains b := by
    rw [Bool.eq_iff_iff, List.contains_iff_mem, List.contains_iff_mem, ← List.mem_eraseDups, ha,
      List.mem_eraseDups]
  have hremove (cs : List α) : cs.removeAll as = cs.removeAll as' :=
    List.filter_congr fun b _ => congrArg (!·) (hmem b)
  rw [List.eraseDups_append, List.eraseDups_append, ha, hremove, List.removeAll, List.removeAll,
    eraseDups_filter, eraseDups_filter, hb]

/-- Duplicates may be erased from the parts of a list first. -/
theorem eraseDups_flatMap_eraseDups {β : Type} (f : β → List α) (groups : List β) :
    (groups.flatMap fun group => (f group).eraseDups).eraseDups = (groups.flatMap f).eraseDups := by
  induction groups with
  | nil => rfl
  | cons group groups ih =>
      rw [List.flatMap_cons, List.flatMap_cons]
      exact eraseDups_append_congr (eraseDups_of_nodup (nodup_eraseDups _)) ih

end Duplicates

namespace TypeEstimate

/-! ### The names of a union -/

/-- Names that are added one by one stand behind those that were seen, each of them once. -/
theorem foldl_addName (seen names : List String) :
    names.foldl addName seen = seen ++ (names.removeAll seen).eraseDups := by
  induction names generalizing seen with
  | nil => simp [List.removeAll]
  | cons name names ih =>
      rw [List.foldl_cons, ih, addName]
      by_cases hseen : seen.contains name
      · rw [if_pos hseen]
        simp_all [List.removeAll]
      · have hrest : names.removeAll (seen ++ [name]) =
            (names.removeAll seen).filter fun other => !other == name := by
          simp [List.removeAll, List.filter_filter, Bool.and_comm, beq_eq_decide]
        have hnew : (name :: names).removeAll seen = name :: names.removeAll seen := by
          simp_all [List.removeAll]
        rw [if_neg hseen, hrest, hnew, List.eraseDups_cons, List.append_assoc, List.singleton_append]

/-- The names of several estimates, each where it is first seen. -/
theorem union_eq (estimates : List TypeEstimate) :
    union estimates = ofNames (estimates.flatMap names).eraseDups := by
  rw [union, foldl_addName]
  simp [List.removeAll]

/-- An estimate of some names has these names. -/
theorem names_ofNames {candidates : List String} (h : candidates ≠ []) :
    (ofNames candidates).names = candidates := by
  match candidates with
  | [name] => rfl
  | _ :: _ :: _ => rfl

/-- Every union has a name. -/
theorem names_union_ne_nil (estimates : List TypeEstimate) : (union estimates).names ≠ [] := by
  rw [union_eq]
  match (estimates.flatMap names).eraseDups with
  | [] => exact List.cons_ne_nil _ _
  | [_] => exact List.cons_ne_nil _ _
  | _ :: _ :: _ => exact List.cons_ne_nil _ _

/-- No names are left only where there were none. -/
theorem eraseDups_eq_nil_iff {candidates : List String} : candidates.eraseDups = [] ↔ candidates = [] := by
  cases candidates with
  | nil => simp
  | cons name rest => simp [List.eraseDups_cons]

/-- The names of a union of estimates that have a name. -/
theorem names_union {estimates : List TypeEstimate} (h : estimates.flatMap names ≠ []) :
    (union estimates).names = (estimates.flatMap names).eraseDups := by
  rw [union_eq, names_ofNames (mt eraseDups_eq_nil_iff.mp h)]

example : union [.many ["number", "string"], .one "boolean", .one "string"] =
    .many ["number", "string", "boolean"] := by
  rfl

/-- A union is a single name exactly when one name remains, or when none does and it is undefined. -/
theorem union_eq_one_iff {estimates : List TypeEstimate} {name : String} :
    union estimates = .one name ↔ (estimates.flatMap names).eraseDups = [name] ∨
      estimates.flatMap names = [] ∧ name = "undefined" := by
  rw [union_eq, ← eraseDups_eq_nil_iff]
  match (estimates.flatMap names).eraseDups with
  | [] => simp [ofNames, eq_comm]
  | [_] => simp [ofNames]
  | _ :: _ :: _ => simp [ofNames]

/-! ### Unions of unions -/

/-- Groups of estimates may be merged first, if each of them has a name. -/
theorem union_map_union {groups : List (List TypeEstimate)}
    (h : ∀ group ∈ groups, group.flatMap names ≠ []) :
    union (groups.map union) = union groups.flatten := by
  have hnames : (groups.map union).flatMap names =
      groups.flatMap fun group => (group.flatMap names).eraseDups := by
    rw [List.flatMap_map]
    exact List.flatMap_congr fun group hgroup => names_union (h group hgroup)
  rw [union_eq, union_eq, hnames, eraseDups_flatMap_eraseDups, List.flatten_eq_flatMap,
    List.flatMap_assoc]
  rfl

/-- An estimate that is the union of itself: its names are not repeated, and a single one stands alone. -/
def IsUnion (estimate : TypeEstimate) : Prop :=
  union [estimate] = estimate

/-- A single name is a union. -/
theorem isUnion_one (name : String) : (one name).IsUnion := rfl

/-- What a union comes to is one. -/
theorem isUnion_union (estimates : List TypeEstimate) : (union estimates).IsUnion := by
  by_cases h : estimates.flatMap names = []
  · have hnone : union estimates = .one "undefined" := union_eq_one_iff.mpr (.inr ⟨h, rfl⟩)
    rw [hnone]
    exact isUnion_one _
  · have hgroup : ∀ group ∈ [estimates], group.flatMap names ≠ [] := by simpa using h
    simpa [IsUnion] using union_map_union hgroup

/-- A union has at least one name. -/
theorem IsUnion.names_ne_nil {estimate : TypeEstimate} (h : estimate.IsUnion) : estimate.names ≠ [] := by
  rw [← h]
  exact names_union_ne_nil _

end TypeEstimate

end RuleLang
