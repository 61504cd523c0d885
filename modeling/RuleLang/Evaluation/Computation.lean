/-!
# Computations that may suspend

A computation acts on a world until it is finished or suspends; it goes on when it is resumed. A
computation always ends.

* `Computation`: what is left to do.
* `Computation.bind`: one computation after another, without a pause between them.
* `Computation.inOrder`: any number of computations, one after another.
* `Computation.run`: a computation from its start to its end, resumed whenever it suspends.
-/

namespace RuleLang

/-- A computation over worlds of type `ω` that fails with `ε` or answers with `α`. -/
inductive Computation (ω ε α : Type) where
  | finished (outcome : Except ε α)
  /-- Reads the world, changes it, and goes on. -/
  | act (effect : ω → ω) (next : ω → Computation ω ε α)
  /-- Pauses until it is resumed. -/
  | suspended (next : Computation ω ε α)

namespace Computation

variable {ω ε α β : Type}

/-- Answers at once. -/
def pure (a : α) : Computation ω ε α :=
  finished (.ok a)

/-- Fails at once. -/
def fail (e : ε) : Computation ω ε α :=
  finished (.error e)

/-- Changes the outcome. -/
def mapOutcome (f : Except ε α → Except ε β) : Computation ω ε α → Computation ω ε β
  | finished outcome => finished (f outcome)
  | act effect next => act effect fun w => mapOutcome f (next w)
  | suspended next => suspended (mapOutcome f next)

/-- Changes the answer. -/
def map (f : α → β) : Computation ω ε α → Computation ω ε β :=
  mapOutcome (Except.map f)

/-- Changes the failure. -/
def mapError (f : ε → ε) : Computation ω ε α → Computation ω ε α :=
  mapOutcome (Except.mapError f)

/-- One computation after another. The second starts as soon as the first has answered. -/
def bind (first : Computation ω ε α) (next : α → Computation ω ε β) : Computation ω ε β :=
  match first with
  | finished (.ok a) => next a
  | finished (.error e) => finished (.error e)
  | act effect rest => act effect fun w => bind (rest w) next
  | suspended rest => suspended (bind rest next)

/-- Suspends a number of times before it goes on. -/
def delay (rounds : Nat) (rest : Computation ω ε α) : Computation ω ε α :=
  match rounds with
  | 0 => rest
  | rounds + 1 => suspended (delay rounds rest)

/-- One computation after another, for the answer of the last. -/
def inOrder (last : α) : List (Computation ω ε α) → Computation ω ε α
  | [] => pure last
  | c :: rest => bind c fun a => inOrder a rest

/-- A computation from its start to its end in a world. -/
def run : Computation ω ε α → ω → Except ε α × ω
  | finished outcome, w => (outcome, w)
  | act effect next, w => run (next w) (effect w)
  | suspended next, w => run next w

end Computation

end RuleLang
