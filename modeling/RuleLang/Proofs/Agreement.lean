import Mathlib.Data.List.Forall2

/-!
# Two runs that agree

Two fallible steps agree when both fail or both succeed with related answers. Steps that agree stay in
agreement when they are continued alike.

* `Agree`: both steps fail, or both succeed and their answers are related.
* `Agree.bind`, `Agree.mapM`: steps in a row, and traversals of related lists.
* `rel_find?`, `rel_getLast?`, `all_eq_all`: related lists under tests that do not tell related items
  apart.
-/

namespace RuleLang

variable {ε α β γ δ : Type}

/-- Both steps fail, or both succeed with related answers. -/
inductive Agree (P : α → β → Prop) : Except ε α → Except ε β → Prop
  | error (e e' : ε) : Agree P (.error e) (.error e')
  | ok {a : α} {b : β} (h : P a b) : Agree P (.ok a) (.ok b)

/-- Steps that agree both fail, or both succeed with related answers. -/
theorem agree_iff {P : α → β → Prop} {x : Except ε α} {y : Except ε β} :
    Agree P x y ↔ (∃ e e', x = .error e ∧ y = .error e') ∨ ∃ a b, x = .ok a ∧ y = .ok b ∧ P a b := by
  constructor
  · intro h
    cases h with
    | error e e' => exact .inl ⟨e, e', rfl, rfl⟩
    | ok h => exact .inr ⟨_, _, rfl, rfl, h⟩
  · rintro (⟨e, e', rfl, rfl⟩ | ⟨a, b, rfl, rfl, h⟩)
    · exact .error e e'
    · exact .ok h

namespace Agree

variable {P : α → β → Prop} {Q : γ → δ → Prop} {x : Except ε α} {y : Except ε β}

/-- One step after another agrees if both steps do. -/
theorem bind {f : α → Except ε γ} {g : β → Except ε δ} (h : Agree P x y)
    (hnext : ∀ a b, P a b → Agree Q (f a) (g b)) : Agree Q (x >>= f) (y >>= g) := by
  cases h with
  | error e e' => exact .error e e'
  | ok hab => exact hnext _ _ hab

/-- Changed answers agree if the change keeps what is known of them. -/
theorem map {f : α → γ} {g : β → δ} (h : Agree P x y) (hmap : ∀ a b, P a b → Q (f a) (g b)) :
    Agree Q (x.map f) (y.map g) := by
  cases h with
  | error e e' => exact .error e e'
  | ok hab => exact .ok (hmap _ _ hab)

/-- Passing through two lists agrees if it does member by member. -/
theorem mapM {f : α → Except ε γ} {g : β → Except ε δ} {xs : List α} {ys : List β}
    (h : List.Forall₂ P xs ys) (hnext : ∀ a b, P a b → Agree Q (f a) (g b)) :
    Agree (List.Forall₂ Q) (xs.mapM f) (ys.mapM g) := by
  induction h with
  | nil =>
      rw [List.mapM_nil, List.mapM_nil]
      exact .ok .nil
  | cons head tail ih =>
      rw [List.mapM_cons, List.mapM_cons]
      refine (hnext _ _ head).bind ?_
      intro a b hab
      exact ih.bind fun as bs hall => .ok (.cons hab hall)

end Agree

section

variable {P : α → β → Prop} {xs : List α} {ys : List β}

/-! ### Related options -/

/-- Related options are both absent, or both there with related values. -/
theorem rel_cases {x : Option α} {y : Option β} (h : Option.Rel P x y) :
    (x = none ∧ y = none) ∨ ∃ a b, x = some a ∧ y = some b ∧ P a b := by
  cases h with
  | none => exact .inl ⟨rfl, rfl⟩
  | some hab => exact .inr ⟨_, _, rfl, rfl, hab⟩

/-- One optional step after another agrees if both steps do. -/
theorem rel_bind {Q : γ → δ → Prop} {f : α → Option γ} {g : β → Option δ} {x : Option α} {y : Option β}
    (h : Option.Rel P x y) (hnext : ∀ a b, P a b → Option.Rel Q (f a) (g b)) :
    Option.Rel Q (x.bind f) (y.bind g) := by
  cases h with
  | none => exact .none
  | some hab => exact hnext _ _ hab

/-! ### Related lists -/

/-- A test that agrees member by member holds of all members of both lists or of neither list. -/
theorem all_eq_all {p : α → Bool} {q : β → Bool} (h : List.Forall₂ P xs ys)
    (hpq : ∀ a b, P a b → p a = q b) : xs.all p = ys.all q := by
  induction h with
  | nil => rfl
  | cons head tail ih => rw [List.all_cons, List.all_cons, hpq _ _ head, ih]

/-- Of two lists that agree, the first members that pass a test agree. -/
theorem rel_find? {p : α → Bool} {q : β → Bool} (h : List.Forall₂ P xs ys)
    (hpq : ∀ a b, P a b → p a = q b) : Option.Rel P (xs.find? p) (ys.find? q) := by
  induction h with
  | nil => exact .none
  | @cons a b xs ys head tail ih =>
      rw [List.find?_cons, List.find?_cons, ← hpq a b head]
      cases p a with
      | true => exact .some head
      | false => exact ih

/-- Of two lists that agree, the last members agree. -/
theorem rel_getLast? (h : List.Forall₂ P xs ys) : Option.Rel P xs.getLast? ys.getLast? := by
  induction h with
  | nil => exact .none
  | @cons a b xs ys head tail ih =>
      cases tail with
      | nil => exact .some head
      | cons _ _ =>
          rw [List.getLast?_cons_cons, List.getLast?_cons_cons]
          exact ih

/-- Of two lists that agree, the members at a place agree. -/
theorem rel_getElem? (h : List.Forall₂ P xs ys) (i : Nat) : Option.Rel P xs[i]? ys[i]? := by
  induction h generalizing i with
  | nil => exact .none
  | cons head tail ih =>
      cases i with
      | zero => exact .some head
      | succ i =>
          rw [List.getElem?_cons_succ, List.getElem?_cons_succ]
          exact ih i

/-- Two lists that agree and are split at the same place agree part by part. -/
theorem forall₂_append_of_length {R : α → β → Prop} {as cs : List α} {bs ds : List β}
    (h : List.Forall₂ R (as ++ cs) (bs ++ ds)) (hlength : as.length = bs.length) :
    List.Forall₂ R as bs ∧ List.Forall₂ R cs ds := by
  have hhead := List.forall₂_take_append _ _ _ h
  have htail := List.forall₂_drop_append _ _ _ h
  rw [← hlength, List.take_left] at hhead
  rw [← hlength, List.drop_left] at htail
  exact ⟨hhead, htail⟩

/-- Lists whose items have the same image, and whose items' parts are related in order, are related item
by item. -/
theorem forall₂_of_flatMap {ι κ σ : Type} {R : κ → κ → Prop} {S : ι → ι → Prop} {f : ι → σ}
    {parts : ι → List κ} {as bs : List ι}
    (hlength : ∀ a b, f a = f b → (parts a).length = (parts b).length)
    (h : ∀ a ∈ as, ∀ b, f a = f b → List.Forall₂ R (parts a) (parts b) → S a b)
    (hmap : as.map f = bs.map f) (hparts : List.Forall₂ R (as.flatMap parts) (bs.flatMap parts)) :
    List.Forall₂ S as bs := by
  induction as generalizing bs with
  | nil => rw [List.map_eq_nil_iff.mp hmap.symm]; exact .nil
  | cons a as ih =>
      cases bs with
      | nil => cases hmap
      | cons b bs =>
          rw [List.map_cons, List.map_cons, List.cons.injEq] at hmap
          rw [List.flatMap_cons, List.flatMap_cons] at hparts
          rw [List.forall_mem_cons] at h
          obtain ⟨hhead, htail⟩ := forall₂_append_of_length hparts (hlength a b hmap.1)
          exact .cons (h.1 b hmap.1 hhead) (ih h.2 hmap.2 htail)

end

end RuleLang
