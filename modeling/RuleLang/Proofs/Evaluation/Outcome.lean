import Mathlib.Data.List.Forall2
import RuleLang.Evaluation.Basic

/-!
# Outcomes of computations

What can be said of the outcome of a computation whatever the world answers, and how that follows for
computations one after another and side by side.

* `Computation.Ends`: every outcome of a computation has a property.
* `Computation.Ends.run`: the outcome of a run is such an outcome.
* `Computation.ends_bind`: one after another.
* `Computation.Each`: what side-by-side computations may answer or fail with.
* `Computation.SideBySide.ends`: they do so, in whatever order they go on.
* `Combinators.ends_both`, `Evaluator.ends_gather`: two side by side, and the parts of a tree.
-/

namespace RuleLang

namespace Computation

variable {ω ε α β : Type}

/-- Every outcome of a computation has a property, whatever the world is when the computation acts. -/
def Ends (P : Except ε α → Prop) : Computation ω ε α → Prop
  | finished outcome => P outcome
  | act _ next => ∀ w, Ends P (next w)
  | suspended next => Ends P next

variable {P Q : Except ε α → Prop} {c : Computation ω ε α}

/-- The outcome of a run is one that the computation can end with. -/
theorem Ends.run (h : c.Ends P) (w : ω) : P (c.run w).1 := by
  induction c generalizing w with
  | finished outcome => exact h
  | act effect next ih => exact ih w (h w) (effect w)
  | suspended next ih => exact ih h w

/-- What follows from something known of every end is known of every end. -/
theorem Ends.mono (h : c.Ends P) (himp : ∀ outcome, P outcome → Q outcome) : c.Ends Q := by
  induction c with
  | finished outcome => exact himp outcome h
  | act effect next ih => exact fun w => ih w (h w)
  | suspended next ih => exact ih h

/-- An answer at once is the only end. -/
@[simp] theorem ends_pure {a : α} : (pure a : Computation ω ε α).Ends P ↔ P (.ok a) := Iff.rfl

/-- A failure at once is the only end. -/
@[simp] theorem ends_fail {e : ε} : (fail e : Computation ω ε α).Ends P ↔ P (.error e) := Iff.rfl

/-- A changed outcome is the change of an outcome. -/
@[simp] theorem ends_mapOutcome {f : Except ε α → Except ε β} {R : Except ε β → Prop} :
    (mapOutcome f c).Ends R ↔ c.Ends fun outcome => R (f outcome) := by
  induction c with
  | finished outcome => rfl
  | act effect next ih => exact forall_congr' ih
  | suspended next ih => exact ih

/-- One computation after another ends as the second does on the answer of the first, or as the first
fails. -/
theorem ends_bind {next : α → Computation ω ε β} {R : Except ε β → Prop} (first : c.Ends P)
    (answered : ∀ a, P (.ok a) → (next a).Ends R) (failed : ∀ e, P (.error e) → R (.error e)) :
    (bind c next).Ends R := by
  induction c with
  | finished outcome =>
      cases outcome with
      | ok a => exact answered a first
      | error e => exact failed e first
  | act effect rest ih => exact fun w => ih w (first w)
  | suspended rest ih => exact ih first

/-! ### Side by side -/

/-- What computations side by side may answer or fail with, given what each of them may. -/
def Each (Ps : List (Except ε α → Prop)) : Except ε (List α) → Prop
  | .ok answers => List.Forall₂ (fun P a => P (.ok a)) Ps answers
  | .error e => ∃ P ∈ Ps, P (.error e)

/-- Each of a list of computations ends as the property in its place says. -/
abbrev EndAs (Ps : List (Except ε α → Prop)) (cs : List (Computation ω ε α)) : Prop :=
  List.Forall₂ (fun P c => c.Ends P) Ps cs

section Places

variable {Ps : List (Except ε α → Prop)} {before after : List (Computation ω ε α)}
  {d : Computation ω ε α}

/-- A computation may be replaced by one that ends as it does. -/
theorem EndAs.replace (h : EndAs Ps (before ++ c :: after)) (hd : ∀ P, c.Ends P → d.Ends P) :
    EndAs Ps (before ++ d :: after) := by
  induction before generalizing Ps with
  | nil =>
      cases h with
      | cons head tail => exact .cons (hd _ head) tail
  | cons b before ih =>
      cases h with
      | cons head tail => exact .cons head (ih tail)

/-- A property stands in the place of each computation. -/
theorem EndAs.exists_of_mem {cs : List (Computation ω ε α)} (h : EndAs Ps cs) (hc : c ∈ cs) :
    ∃ P ∈ Ps, c.Ends P := by
  induction h with
  | nil => exact absurd hc List.not_mem_nil
  | cons head tail ih =>
      rcases List.mem_cons.mp hc with rfl | hc
      · exact ⟨_, List.mem_cons_self, head⟩
      · obtain ⟨P, hP, hends⟩ := ih hc
        exact ⟨P, List.mem_cons_of_mem _ hP, hends⟩

/-- Computations that have answered have the answers that are allowed. -/
theorem EndAs.each {answers : List α} (h : EndAs Ps (answers.map (pure (ω := ω) (ε := ε)))) :
    Each Ps (.ok answers) := by
  rw [EndAs, List.forall₂_map_right_iff] at h
  exact h

end Places

namespace SideBySide

variable {limit? : Option Nat} {answers : List α} {held rest : List (Computation ω ε α)}
  {joined : Computation ω ε (List α)}

/-- Computations side by side answer with all answers in order or fail as one of them does. The induction
is on the steps that they take; what has answered counts as a computation that answers at once. -/
theorem ends (h : SideBySide limit? answers held rest joined) {Ps : List (Except ε α → Prop)}
    (each : EndAs Ps (answers.map pure ++ (held ++ rest))) : joined.Ends (Each Ps) := by
  induction h with
  | take room go ih => exact ih (by simpa using each)
  | yield go ih => exact ih (by simpa [pure] using each)
  | @act answers before after rest effect next joined go ih =>
      intro w
      rw [List.append_assoc, ← List.append_assoc] at each
      apply ih w
      rw [List.append_assoc, ← List.append_assoc]
      exact each.replace fun P hP => hP w
  | @resume answers before after rest c joined go ih =>
      rw [List.append_assoc, ← List.append_assoc] at each
      apply ih
      rw [List.append_assoc, ← List.append_assoc]
      exact each.replace fun P hP => hP
  | suspend before go ih => exact ih each
  | look before go ih => exact fun w => ih w each
  | @fail answers before after rest e =>
      obtain ⟨P, hP, he⟩ := each.exists_of_mem (c := finished (.error e)) (by simp)
      exact ⟨P, hP, he⟩
  | done =>
      rw [List.append_nil, List.append_nil] at each
      exact each.each

/-- Where all have answered, they answer together at once. -/
theorem eq_pure (h : SideBySide limit? answers held rest joined) {as : List α}
    (answered : answers.map pure ++ (held ++ rest) = as.map pure) : joined = pure as := by
  have unanswered {c : Computation ω ε α} {before : List (Computation ω ε α)} {after rest answers}
      (h : answers ++ ((before ++ c :: after) ++ rest) = as.map pure) : ∃ a, c = pure a := by
    have hc : c ∈ as.map pure := by
      rw [← h]
      simp
    obtain ⟨a, -, rfl⟩ := List.mem_map.mp hc
    exact ⟨a, rfl⟩
  induction h with
  | take room go ih => exact ih (by simpa using answered)
  | yield go ih => exact ih (by simpa [pure] using answered)
  | act before go ih | resume before go ih | suspend before go ih | look before go ih | fail before =>
      obtain ⟨a, ha⟩ := unanswered answered
      cases ha
  | done =>
      rw [List.append_nil, List.append_nil] at answered
      have hinjective : Function.Injective (pure : α → Computation ω ε α) := by
        intro a b hab
        cases hab
        rfl
      rw [hinjective.list_map answered]
      rfl

end SideBySide

/-- What two computations side by side may answer or fail with. -/
def Pair (P Q : Except ε α → Prop) : Except ε (α × α) → Prop
  | .ok (a, b) => P (.ok a) ∧ Q (.ok b)
  | .error e => P (.error e) ∨ Q (.error e)

end Computation

open RuleLang.Computation

/-- Two computations side by side answer with both answers or fail as one of them does. -/
theorem Combinators.ends_both {ω ε α : Type} (combinators : Combinators ω ε α)
    {left right : Computation ω ε α} {P Q : Except ε α → Prop} (hleft : left.Ends P)
    (hright : right.Ends Q) : (combinators.both left right).Ends (Pair P Q) := by
  have each : EndAs [P, Q] ([left, right] : List (Computation ω ε α)) :=
    .cons hleft (.cons hright .nil)
  have hends := (combinators.both_sideBySide left right).ends each
  apply Ends.mono (ends_mapOutcome.mp hends)
  intro outcome houtcome
  cases outcome with
  | ok answers =>
      cases houtcome with
      | cons hP rest =>
          cases rest with
          | cons hQ rest => exact ⟨hP, hQ⟩
  | error e =>
      obtain ⟨R, hR, he⟩ := houtcome
      rcases List.mem_pair.mp hR with rfl | rfl
      · exact .inl he
      · exact .inr he

namespace Evaluator

variable {ω : Type} (e : Evaluator ω)

/-- Parts are evaluated side by side, as many at a time as the configuration allows. -/
theorem sideBySide_gather (parts : List (Computation ω RuleError Value)) :
    SideBySide (e.config.maxFanout.map (max · 1)) [] [] parts (e.gather parts) := by
  unfold gather
  cases e.config.maxFanout with
  | none => exact e.combinators.all_sideBySide parts
  | some limit =>
      exact e.combinators.buffered_sideBySide (max limit 1) (Nat.le_max_right limit 1) parts

/-- Parts that have answered answer together. -/
theorem gather_pure (vs : List Value) : e.gather (vs.map .pure) = .pure vs :=
  (e.sideBySide_gather _).eq_pure rfl

/-- However many parts are under way, they answer with all answers in order or fail as one of them
does. -/
theorem ends_gather {e : Evaluator ω} {Ps : List (Except RuleError Value → Prop)}
    {parts : List (Computation ω RuleError Value)} (h : EndAs Ps parts) :
    (e.gather parts).Ends (Each Ps) :=
  (e.sideBySide_gather parts).ends h

end Evaluator

end RuleLang
