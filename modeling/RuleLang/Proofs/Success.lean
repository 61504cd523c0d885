import Mathlib.Data.List.Forall2

/-!
# When a chain of fallible steps succeeds

* `bind_eq_ok_iff`: two steps succeed when the first does and the second does on its answer.
* `mapM_eq_ok_iff`: a traversal succeeds when every item does, and answers item by item.
* `exists_of_mem_forall₂`: each answer of a traversal is the answer for one of the items.
* `mapM_eq_none_of_mem`: where an answer is missing there is no list of all answers.
-/

namespace RuleLang

variable {ε α β : Type}

/-- Two steps in a row succeed exactly when both do. -/
theorem bind_eq_ok_iff {x : Except ε α} {f : α → Except ε β} {b : β} :
    (x >>= f) = .ok b ↔ ∃ a, x = .ok a ∧ f a = .ok b := by
  cases x with
  | error e => simp [bind, Except.bind]
  | ok a => simp [bind, Except.bind]

/-- A changed answer is the change of an answer. -/
theorem map_eq_ok_iff {x : Except ε α} {f : α → β} {b : β} :
    x.map f = .ok b ↔ ∃ a, x = .ok a ∧ f a = b := by
  cases x with
  | error e => simp [Except.map]
  | ok a => simp [Except.map]

/-- A traversal succeeds exactly when every item does. -/
theorem mapM_eq_ok_iff {f : α → Except ε β} {xs : List α} {ys : List β} :
    xs.mapM f = .ok ys ↔ List.Forall₂ (fun x y => f x = .ok y) xs ys := by
  induction xs generalizing ys with
  | nil =>
      rw [List.mapM_nil, List.forall₂_nil_left_iff]
      exact ⟨fun h => (Except.ok.inj h).symm, fun h => h ▸ rfl⟩
  | cons x xs ih =>
      rw [List.mapM_cons, bind_eq_ok_iff]
      constructor
      · rintro ⟨y, hy, h⟩
        obtain ⟨rest, hrest, h⟩ := bind_eq_ok_iff.mp h
        cases h
        exact .cons hy (ih.mp hrest)
      · intro h
        cases h with
        | cons hy hrest =>
            exact ⟨_, hy, bind_eq_ok_iff.mpr ⟨_, ih.mpr hrest, rfl⟩⟩

/-- What follows for each item and its answer follows for all of them. -/
theorem forall₂_imp_of_mem {R S : α → β → Prop} {xs : List α} {ys : List β} (h : List.Forall₂ R xs ys)
    (himp : ∀ x ∈ xs, ∀ y, R x y → S x y) : List.Forall₂ S xs ys := by
  induction h with
  | nil => exact .nil
  | cons head tail ih =>
      rw [List.forall_mem_cons] at himp
      exact .cons (himp.1 _ head) (ih himp.2)

/-- Where each item has an answer there is a list of answers. -/
theorem exists_forall₂ {R : α → β → Prop} {xs : List α} (h : ∀ x ∈ xs, ∃ y, R x y) :
    ∃ ys, List.Forall₂ R xs ys := by
  induction xs with
  | nil => exact ⟨[], .nil⟩
  | cons x xs ih =>
      rw [List.forall_mem_cons] at h
      obtain ⟨y, hy⟩ := h.1
      obtain ⟨ys, hys⟩ := ih h.2
      exact ⟨y :: ys, .cons hy hys⟩

/-- Each answer of a traversal is the answer for one of the items. -/
theorem exists_of_mem_forall₂ {R : α → β → Prop} {xs : List α} {ys : List β}
    (h : List.Forall₂ R xs ys) {y : β} (hy : y ∈ ys) : ∃ x ∈ xs, R x y := by
  induction h with
  | nil => exact absurd hy List.not_mem_nil
  | cons head tail ih =>
      rcases List.mem_cons.mp hy with rfl | hy
      · exact ⟨_, List.mem_cons_self, head⟩
      · obtain ⟨x, hx, hR⟩ := ih hy
        exact ⟨x, List.mem_cons_of_mem _ hx, hR⟩

/-- The last answer of a traversal is the answer for the last item. -/
theorem exists_of_getLast?_forall₂ {R : α → β → Prop} {xs : List α} {ys : List β}
    (h : List.Forall₂ R xs ys) {x : α} (hx : xs.getLast? = some x) :
    ∃ y, ys.getLast? = some y ∧ R x y := by
  induction h with
  | nil => cases hx
  | @cons a b xs ys head tail ih =>
      cases tail with
      | nil =>
          rw [List.getLast?_singleton, Option.some.injEq] at hx
          exact ⟨b, List.getLast?_singleton, hx ▸ head⟩
      | cons next rest =>
          rw [List.getLast?_cons_cons] at hx ⊢
          exact ih hx

/-- As long as one answer is missing there is no list of all answers. -/
theorem mapM_eq_none_of_mem {answers : List (Option α)} (h : none ∈ answers) :
    answers.mapM id = none := by
  induction answers with
  | nil => exact absurd h List.not_mem_nil
  | cons a? rest ih =>
      rw [List.mapM_cons]
      rcases List.mem_cons.mp h with rfl | h
      · rfl
      · rw [ih h]
        cases a? <;> rfl

/-- An answer in front of the others. -/
theorem mapM_some_cons (a : α) (answers : List (Option α)) :
    (some a :: answers).mapM id = (answers.mapM id).map (a :: ·) := by
  rw [List.mapM_cons]
  cases answers.mapM id <;> rfl

end RuleLang
