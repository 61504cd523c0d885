import RuleLang.Evaluation.Rounds
import RuleLang.Proofs.Evaluation.Watching

/-!
# Rounds with and without a log

Computations that take turns do so by where they suspend. What they write down besides makes no
difference, so that rounds over worlds with a log watch rounds over worlds without it.

* `Combinators.watches_rounds`: carried out in rounds, computations with a log do what they do without.
-/

namespace RuleLang

namespace Computation

variable {ω ε α β E : Type}

/-- The turn of the right computation while the left one is suspended. -/
theorem watches_rightTurn {left : Computation (ω × List E) ε α} {left' : Computation ω ε α}
    {again : Computation (ω × List E) ε β → Computation (ω × List E) ε (α × β)}
    {again' : Computation ω ε β → Computation ω ε (α × β)} (hleft : Watches left left')
    (hagain : ∀ {right right'}, Watches right right' → Watches (again right) (again' right'))
    {right : Computation (ω × List E) ε β} {right' : Computation ω ε β} (hright : Watches right right') :
    Watches (rightTurn left again right) (rightTurn left' again' right') := by
  induction hright with
  | finished outcome =>
      cases outcome with
      | ok b => exact .suspended (hleft.mapOutcome _)
      | error e => exact .finished _
  | act rest ih => exact .act ih
  | suspended rest ih => exact .suspended (hagain rest)
  | emit rest ih => exact .emit ih

/-- Two computations take their rounds. -/
theorem watches_both {left : Computation (ω × List E) ε α} {left' : Computation ω ε α}
    {right : Computation (ω × List E) ε β} {right' : Computation ω ε β} (hleft : Watches left left')
    (hright : Watches right right') : Watches (both left right) (both left' right') := by
  induction hleft generalizing right right' with
  | finished outcome =>
      cases outcome with
      | ok a => exact hright.mapOutcome _
      | error e => exact .finished _
  | act rest ih => exact .act fun w log => ih w log hright
  | suspended rest ih => exact watches_rightTurn rest ih hright
  | emit rest ih => exact .emit fun w log => ih w log hright

variable {c : Computation (ω × List E) ε α} {d : Computation ω ε α}
  {cs : List (Computation (ω × List E) ε α)} {ds : List (Computation ω ε α)}

/-- Any number of computations take their rounds. -/
theorem watches_all (each : List.Forall₂ Watches cs ds) : Watches (all cs) (all ds) := by
  induction each with
  | nil => exact .finished _
  | cons head tail ih => exact (watches_both head ih).mapOutcome _

/-- A computation takes its turn. -/
theorem watches_turn {next : Computation (ω × List E) ε α → Computation (ω × List E) ε β}
    {next' : Computation ω ε α → Computation ω ε β} (h : Watches c d)
    (hnext : ∀ {c d}, Watches c d → Watches (next c) (next' d)) :
    Watches (turn next c) (turn next' d) := by
  induction h with
  | finished outcome => exact hnext (.finished outcome)
  | act rest ih => exact .act ih
  | suspended rest ih => exact hnext rest
  | emit rest ih => exact .emit ih

/-- The first computations of a list take their turns. -/
theorem watches_turns {count : Nat}
    {next : List (Computation (ω × List E) ε α) → Computation (ω × List E) ε β}
    {next' : List (Computation ω ε α) → Computation ω ε β} (each : List.Forall₂ Watches cs ds)
    (hnext : ∀ {cs ds}, List.Forall₂ Watches cs ds → Watches (next cs) (next' ds)) :
    Watches (turns count next cs) (turns count next' ds) := by
  induction count generalizing cs ds next next' with
  | zero =>
      rw [turns, turns]
      exact hnext each
  | succ count ih =>
      cases each with
      | nil =>
          simp only [turns]
          exact hnext .nil
      | cons head tail =>
          rw [turns, turns]
          exact watches_turn head fun hc => ih tail fun each => hnext (.cons hc each)

/-- The first computation of a list goes on to its answer. -/
theorem watches_lead {followers : Nat}
    {next : α → List (Computation (ω × List E) ε α) → Computation (ω × List E) ε β}
    {next' : α → List (Computation ω ε α) → Computation ω ε β} (h : Watches c d)
    (each : List.Forall₂ Watches cs ds)
    (hnext : ∀ a {cs ds}, List.Forall₂ Watches cs ds → Watches (next a cs) (next' a ds)) :
    Watches (lead followers next c cs) (lead followers next' d ds) := by
  induction h generalizing cs ds with
  | finished outcome =>
      rw [lead.eq_def, lead.eq_def]
      cases outcome with
      | ok a => exact hnext a each
      | error e => exact .finished _
  | act rest ih =>
      rw [lead, lead]
      exact .act fun w log => ih w log each
  | suspended rest ih =>
      rw [lead, lead]
      exact watches_turns each fun each => .suspended (ih each)
  | emit rest ih =>
      rw [lead]
      exact .emit fun w log => ih w log each

/-- Of any number of computations so many at a time take their rounds. -/
theorem watches_windowedUpTo (limit : Nat) {count : Nat} (each : List.Forall₂ Watches cs ds) :
    Watches (windowedUpTo limit count cs) (windowedUpTo limit count ds) := by
  induction count generalizing cs ds with
  | zero => exact .finished _
  | succ count ih =>
      cases each with
      | nil => exact .finished _
      | cons head tail =>
          rw [windowedUpTo, windowedUpTo]
          exact watches_lead head tail fun a _ _ each => (ih each).mapOutcome _

end Computation

open RuleLang.Computation

/-- In rounds, computations with a log do what they do without it. -/
theorem Combinators.watches_rounds {ω ε α E : Type} :
    Combinators.Watches (.rounds : Combinators (ω × List E) ε α) .rounds where
  both := watches_both
  all := watches_all
  buffered limit cs ds each := by
    change Computation.Watches (windowedUpTo limit cs.length cs) (windowedUpTo limit ds.length ds)
    rw [each.length_eq]
    exact watches_windowedUpTo limit each

end RuleLang
