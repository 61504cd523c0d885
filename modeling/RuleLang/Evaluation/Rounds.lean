import RuleLang.Evaluation.Combinators

/-!
# Computations that take turns

One way to carry out computations side by side, in rounds: in each round those that are held take their
turns from left to right, a turn ends where a computation suspends, and the round ends with a pause.

* `Computation.both`, `Computation.all`: computations side by side; the first that fails ends them all.
* `Computation.windowed`: computations side by side of which only so many are held.
* `Combinators.rounds`: these three are ways to carry out computations side by side.
-/

namespace RuleLang

namespace Computation

variable {ω ε α β γ : Type}

/-- The turn of the right computation in a round in which the left one has suspended with `left` to do.
`again` is both of them in the next round. -/
def rightTurn (left : Computation ω ε α) (again : Computation ω ε β → Computation ω ε (α × β)) :
    Computation ω ε β → Computation ω ε (α × β)
  | finished (.ok b) => suspended (map (·, b) left)
  | finished (.error e) => finished (.error e)
  | act effect next => act effect fun w => rightTurn left again (next w)
  | suspended right => suspended (again right)

/-- Two computations side by side: in each round the left one takes its turn before the right one. When
one fails the other is dropped. -/
def both : Computation ω ε α → Computation ω ε β → Computation ω ε (α × β)
  | finished (.ok a), right => map (a, ·) right
  | finished (.error e), _ => finished (.error e)
  | act effect next, right => act effect fun w => both (next w) right
  | suspended left, right => rightTurn left (both left) right

/-- Computations side by side, in order. -/
def all : List (Computation ω ε α) → Computation ω ε (List α)
  | [] => pure []
  | c :: rest => map (fun (a, as) => a :: as) (both c (all rest))

/-- Runs a computation to the end of its turn and hands over what is left of it. -/
def turn (next : Computation ω ε α → Computation ω ε β) : Computation ω ε α → Computation ω ε β
  | finished outcome => next (finished outcome)
  | act effect rest => act effect fun w => turn next (rest w)
  | suspended rest => next rest

/-- Gives a turn to each of the first computations of a list. -/
def turns (count : Nat) (next : List (Computation ω ε α) → Computation ω ε β)
    (cs : List (Computation ω ε α)) : Computation ω ε β :=
  match count, cs with
  | 0, cs => next cs
  | _, [] => next []
  | count + 1, c :: rest => turn (fun c => turns count (fun rest => next (c :: rest)) rest) c

/-- The rounds in which a computation is the first of its list and `followers` of the others are held
with it. When it has its answer, the others go on with `next` in the same round. -/
def lead (followers : Nat) (next : α → List (Computation ω ε α) → Computation ω ε β) :
    Computation ω ε α → List (Computation ω ε α) → Computation ω ε β
  | finished (.ok a), others => next a others
  | finished (.error e), _ => finished (.error e)
  | act effect rest, others => act effect fun w => lead followers next (rest w) others
  | suspended rest, others =>
    turns followers (fun others => suspended (lead followers next rest others)) others

/-- The first `count` computations of a list, of which at most `limit` are held: one may start when all
that stand `limit` or more places before it have answered. A failure counts when all before it have
answered. -/
def windowedUpTo (limit : Nat) : Nat → List (Computation ω ε α) → Computation ω ε (List α)
  | 0, _ => pure []
  | _ + 1, [] => pure []
  | count + 1, c :: rest =>
    lead (limit - 1) (fun a rest => map (a :: ·) (windowedUpTo limit count rest)) c rest

/-- Computations in order, of which at most `limit` are held. -/
def windowed (limit : Nat) (cs : List (Computation ω ε α)) : Computation ω ε (List α) :=
  windowedUpTo limit cs.length cs

/-! ### Changed answers -/

/-- Two changes of an answer are one change. -/
theorem map_map (f : α → β) (g : β → γ) (c : Computation ω ε α) :
    map g (map f c) = map (fun a => g (f a)) c := by
  induction c with
  | finished outcome => cases outcome <;> rfl
  | act effect next ih => exact congrArg (act effect) (funext ih)
  | suspended next ih => exact congrArg suspended ih

/-- A changed answer of the right computation is a change of both answers, also in the turn in which it goes
on alone. -/
theorem rightTurn_map (f : β → γ) {left : Computation ω ε α}
    {again : Computation ω ε β → Computation ω ε (α × β)}
    {again' : Computation ω ε γ → Computation ω ε (α × γ)}
    (hagain : ∀ right, again' (map f right) = map (fun p => (p.1, f p.2)) (again right))
    (right : Computation ω ε β) :
    rightTurn left again' (map f right) = map (fun p => (p.1, f p.2)) (rightTurn left again right) := by
  induction right with
  | finished outcome =>
      cases outcome with
      | ok b => exact congrArg suspended (map_map (·, b) (fun p => (p.1, f p.2)) left).symm
      | error e => rfl
  | act effect next ih => exact congrArg (act effect) (funext ih)
  | suspended right ih => exact congrArg suspended (hagain right)

/-- A changed answer of the right one of two computations is a change of both answers. -/
theorem both_map (f : β → γ) (left : Computation ω ε α) (right : Computation ω ε β) :
    both left (map f right) = map (fun p => (p.1, f p.2)) (both left right) := by
  induction left generalizing right with
  | finished outcome =>
      cases outcome with
      | ok a => exact (map_map f (a, ·) right).trans (map_map (a, ·) (fun p => (p.1, f p.2)) right).symm
      | error e => rfl
  | act effect next ih => exact congrArg (act effect) (funext fun w => ih w right)
  | suspended left ih => exact rightTurn_map f ih right

/-! ### Side by side -/

namespace SideBySide

variable {limit? : Option Nat} {answers as : List α} {held rest cs : List (Computation ω ε α)}
  {c : Computation ω ε α} {joined : Computation ω ε (List α)}

/-- Answers in front of those that are there already. -/
theorem prepend (h : SideBySide limit? answers held rest joined) (as : List α) :
    SideBySide limit? (as ++ answers) held rest (map (as ++ ·) joined) := by
  induction h with
  | take room go ih => exact .take room ih
  | yield go ih => exact .yield (by rwa [List.append_assoc])
  | act before go ih => exact .act _ ih
  | resume before go ih => exact .resume _ ih
  | suspend before go ih => exact .suspend _ ih
  | look before go ih => exact .look _ ih
  | fail before => exact .fail _
  | done => exact .done

/-- Computations that are held and have answered leave. -/
theorem yields (go : SideBySide limit? (answers ++ as) held rest joined) :
    SideBySide limit? answers (as.map pure ++ held) rest joined := by
  induction as generalizing answers with
  | nil => rwa [List.append_nil] at go
  | cons a as ih => exact .yield (ih (by rwa [List.append_assoc]))

/-- A computation in front of others that have answered. -/
theorem alone (c : Computation ω ε α) (as : List α) :
    SideBySide limit? [] (c :: as.map pure) [] (map (· :: as) c) := by
  induction c with
  | finished outcome =>
      cases outcome with
      | ok a =>
          have answered : SideBySide (ω := ω) (ε := ε) limit? [a] (as.map pure ++ []) [] (pure (a :: as)) :=
            yields .done
          rw [List.append_nil] at answered
          exact .yield answered
      | error e => exact fail []
  | act effect next ih => exact act [] ih
  | suspended next ih => exact suspend [] (resume [] ih)

/-- A computation in front of others that are carried out side by side, with answers that these have
given without it. -/
theorem both (h : SideBySide none answers held rest joined) (c : Computation ω ε α) :
    SideBySide none [] (c :: (answers.map pure ++ held)) rest
      (map (fun (a, as) => a :: as) (both c joined)) := by
  have room (held : List (Computation ω ε α)) : ∀ limit ∈ (none : Option Nat), held.length < limit := by
    simp
  induction c generalizing answers held rest joined with
  | finished outcome =>
      cases outcome with
      | ok a =>
          rw [Computation.both, map_map]
          exact .yield (yields (h.prepend [a]))
      | error e => exact fail []
  | act effect next ih => exact act [] fun w => ih w h
  | suspended c again =>
      rw [Computation.both]
      -- The other computations take their steps while the first one waits.
      have shift (answers : List α) (before after : List (Computation ω ε α)) (d : Computation ω ε α) :
          suspended c :: (answers.map pure ++ (before ++ d :: after)) =
            (suspended c :: (answers.map pure ++ before)) ++ d :: after := by
        simp
      induction h with
      | @take answers held rest d joined _ go ih =>
          have hheld : suspended c :: (answers.map pure ++ (held ++ [d])) =
              (suspended c :: (answers.map pure ++ held)) ++ [d] := by simp
          exact .take (room _) (hheld ▸ ih)
      | @yield answers held rest a joined go ih =>
          have hheld : (answers ++ [a]).map pure ++ held =
              answers.map pure ++ finished (.ok a) :: held := by simp [pure]
          exact hheld ▸ ih
      | act before go ih =>
          rw [shift]
          exact act _ fun w => shift .. ▸ ih w
      | resume before go ih =>
          rw [shift]
          exact resume _ (shift .. ▸ ih)
      | suspend before go ih => exact suspend [] (resume [] (again go))
      | look before go ih => exact look [] ih
      | fail before =>
          rw [shift]
          exact fail _
      | @done answers =>
          have last : SideBySide none [] (c :: answers.map pure) [] (map (· :: answers) c) :=
            alone c answers
          rw [← List.append_nil (answers.map pure)] at last
          refine suspend [] (resume [] ?_)
          change SideBySide none [] (c :: (answers.map pure ++ [])) []
            (map (fun p => p.1 :: p.2) (map (·, answers) c))
          rw [map_map]
          exact last

/-- Where there is room for one more, one more is taken. -/
theorem taken {count : Nat} (room : ∀ limit ∈ limit?, count < limit)
    (go : SideBySide limit? answers (cs.take (count + 1)) (cs.drop (count + 1)) joined) :
    SideBySide limit? answers (cs.take count) (cs.drop count) joined := by
  by_cases hcount : count < cs.length
  · rw [List.drop_eq_getElem_cons hcount]
    refine .take (fun limit hlimit => ?_) (by rwa [List.take_append_getElem hcount])
    exact Nat.lt_of_le_of_lt (List.length_take_le count cs) (room limit hlimit)
  · have hlength : cs.length ≤ count := Nat.le_of_not_lt hcount
    have hlonger : cs.length ≤ count + 1 := Nat.le_succ_of_le hlength
    rw [List.take_of_length_le hlength, List.drop_of_length_le hlength]
    rwa [List.take_of_length_le hlonger, List.drop_of_length_le hlonger] at go

/-- As many as there is room for are taken. -/
theorem takes (count : Nat) (room : ∀ limit ∈ limit?, count ≤ limit)
    (go : SideBySide limit? answers (cs.take count) (cs.drop count) joined) :
    SideBySide limit? answers [] cs joined := by
  induction count with
  | zero => exact go
  | succ count ih => exact ih (fun limit hlimit => Nat.le_of_succ_le (room limit hlimit)) (taken room go)

/-- One that is held takes its turn. -/
theorem turn {before after : List (Computation ω ε α)} {next : Computation ω ε α → _}
    (go : ∀ c, SideBySide limit? answers (before ++ c :: after) rest (next c)) (c : Computation ω ε α) :
    SideBySide limit? answers (before ++ c :: after) rest (Computation.turn next c) := by
  induction c with
  | finished outcome => exact go _
  | act effect next ih => exact .act before ih
  | suspended c ih => exact .resume before (go c)

/-- Those that are held take their turns. -/
theorem turns {count : Nat} {next : List (Computation ω ε α) → _} (before : List (Computation ω ε α))
    (go : ∀ others : List (Computation ω ε α), others.length = cs.length →
      SideBySide limit? answers (before ++ others.take count) (others.drop count) (next others)) :
    SideBySide limit? answers (before ++ cs.take count) (cs.drop count)
      (Computation.turns count next cs) := by
  induction count generalizing before cs next with
  | zero =>
      rw [Computation.turns]
      exact go cs rfl
  | succ count ih =>
      cases cs with
      | nil =>
          rw [Computation.turns]
          · exact go [] rfl
          · simp
      | cons c cs =>
          rw [Computation.turns]
          refine turn (fun c => ?_) c
          rw [List.append_cons]
          refine ih (before ++ [c]) fun others hlength => ?_
          rw [← List.append_cons]
          exact go (c :: others) (congrArg Nat.succ hlength)

/-- The first computation goes on to its answer, with others that are held. -/
theorem lead {followers : Nat} {next : α → List (Computation ω ε α) → _}
    (go : ∀ (a : α) (others : List (Computation ω ε α)), others.length = cs.length →
      SideBySide limit? (answers ++ [a]) (others.take followers) (others.drop followers) (next a others))
    (c : Computation ω ε α) :
    SideBySide limit? answers (c :: cs.take followers) (cs.drop followers)
      (Computation.lead followers next c cs) := by
  induction c generalizing cs with
  | finished outcome =>
      rw [Computation.lead.eq_def]
      cases outcome with
      | ok a => exact .yield (go a cs rfl)
      | error e => exact fail []
  | act effect rest ih =>
      rw [Computation.lead]
      exact act [] fun w => ih w go
  | suspended rest ih =>
      rw [Computation.lead]
      refine turns [suspended rest] fun others hlength => suspend [] (resume [] ?_)
      exact ih fun a more hmore => go a more (hmore.trans hlength)

/-- The first computations are held from the start, and the others wait until one of them has answered. -/
theorem windowedUpTo {limit count : Nat} (positive : 0 < limit) (hcount : cs.length = count) :
    SideBySide (some limit) [] (cs.take limit) (cs.drop limit) (windowedUpTo limit count cs) := by
  obtain ⟨followers, rfl⟩ := Nat.exists_eq_add_one.mpr positive
  induction count generalizing cs with
  | zero =>
      obtain rfl := List.length_eq_zero_iff.mp hcount
      exact .done
  | succ count ih =>
      cases cs with
      | nil => cases hcount
      | cons c cs =>
          rw [Computation.windowedUpTo]
          refine lead (fun a others hlength => taken (by simp) ?_) c
          have hothers : others.length = count := hlength.trans (Nat.succ.inj hcount)
          exact (ih hothers).prepend [a]

end SideBySide

end Computation

open RuleLang.Computation

/-- Computations side by side, carried out in rounds. -/
def Combinators.rounds {ω ε α : Type} : Combinators ω ε α where
  both := Computation.both
  all := Computation.all
  buffered := Computation.windowed
  both_sideBySide left right := by
    have single : SideBySide none [] [] [right] (map (fun b => [b]) right) :=
      .take (by simp) (SideBySide.alone right [])
    have beside := SideBySide.both single left
    rw [both_map, map_map] at beside
    exact .take (by simp) beside
  all_sideBySide cs := by
    induction cs with
    | nil => exact .done
    | cons c cs ih => exact .take (by simp) (ih.both c)
  buffered_sideBySide limit positive cs := by
    apply SideBySide.takes limit (by simp)
    exact SideBySide.windowedUpTo positive rfl

end RuleLang
