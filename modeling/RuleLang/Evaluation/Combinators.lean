import RuleLang.Evaluation.Computation

/-!
# Computations side by side

How computations are carried out side by side is not decided here. What is relied on is that they are
held and resumed one at a time, that their answers come in order, and that no more are held than a limit
allows; in which order those that are held go on, and when all of them pause together, is left open.

* `Computation.SideBySide`: a computation carries out others side by side.
* `Combinators`: three ways to carry out computations so.
-/

namespace RuleLang

namespace Computation

variable {ω ε α : Type}

/-- A computation carries out others side by side. `answers` are those of the first ones, which have left;
the next ones are held, and the rest wait, so that they do nothing. At most as many are held as the limit
allows, if there is one. It ends with all answers in order, or fails as one that is held fails. -/
inductive SideBySide (limit? : Option Nat) :
    List α → List (Computation ω ε α) → List (Computation ω ε α) → Computation ω ε (List α) → Prop
  /-- The next one is taken, while fewer are held than the limit allows. -/
  | take {answers : List α} {held rest : List (Computation ω ε α)} {c : Computation ω ε α}
      {joined : Computation ω ε (List α)} (room : ∀ limit ∈ limit?, held.length < limit)
      (go : SideBySide limit? answers (held ++ [c]) rest joined) :
      SideBySide limit? answers held (c :: rest) joined
  /-- The first that is held has answered, and leaves. -/
  | yield {answers : List α} {held rest : List (Computation ω ε α)} {a : α}
      {joined : Computation ω ε (List α)} (go : SideBySide limit? (answers ++ [a]) held rest joined) :
      SideBySide limit? answers (finished (.ok a) :: held) rest joined
  /-- One that is held acts. -/
  | act {answers : List α} (before : List (Computation ω ε α)) {after rest : List (Computation ω ε α)}
      {effect : ω → ω} {next : ω → Computation ω ε α} {joined : ω → Computation ω ε (List α)}
      (go : ∀ w, SideBySide limit? answers (before ++ next w :: after) rest (joined w)) :
      SideBySide limit? answers (before ++ act effect next :: after) rest (act effect joined)
  /-- One that is held and has suspended is resumed. -/
  | resume {answers : List α} (before : List (Computation ω ε α)) {after rest : List (Computation ω ε α)}
      {c : Computation ω ε α} {joined : Computation ω ε (List α)}
      (go : SideBySide limit? answers (before ++ c :: after) rest joined) :
      SideBySide limit? answers (before ++ suspended c :: after) rest joined
  /-- All pause, as one that is held has suspended. -/
  | suspend {answers : List α} (before : List (Computation ω ε α)) {after rest : List (Computation ω ε α)}
      {c : Computation ω ε α} {joined : Computation ω ε (List α)}
      (go : SideBySide limit? answers (before ++ suspended c :: after) rest joined) :
      SideBySide limit? answers (before ++ suspended c :: after) rest (suspended joined)
  /-- One that is held has suspended, and the world, which stays as it is, tells which one goes on. -/
  | look {answers : List α} (before : List (Computation ω ε α)) {after rest : List (Computation ω ε α)}
      {c : Computation ω ε α} {joined : ω → Computation ω ε (List α)}
      (go : ∀ w, SideBySide limit? answers (before ++ suspended c :: after) rest (joined w)) :
      SideBySide limit? answers (before ++ suspended c :: after) rest (act id joined)
  /-- One that is held has failed, and all others are dropped. -/
  | fail {answers : List α} (before : List (Computation ω ε α)) {after rest : List (Computation ω ε α)}
      {e : ε} : SideBySide limit? answers (before ++ finished (.error e) :: after) rest (finished (.error e))
  /-- All have answered. -/
  | done {answers : List α} : SideBySide limit? answers [] [] (finished (.ok answers))

end Computation

open RuleLang.Computation

/-- Ways to carry out computations side by side, with what is known of them. -/
structure Combinators (ω ε α : Type) where
  /-- Two computations, for both answers. -/
  both : Computation ω ε α → Computation ω ε α → Computation ω ε (α × α)
  /-- Any number of computations, for all answers. -/
  all : List (Computation ω ε α) → Computation ω ε (List α)
  /-- Any number of computations, of which no more are held at a time than a limit allows. -/
  buffered : Nat → List (Computation ω ε α) → Computation ω ε (List α)
  both_sideBySide (left right : Computation ω ε α) :
    SideBySide none [] [] [left, right] (map (fun (a, b) => [a, b]) (both left right))
  all_sideBySide (cs : List (Computation ω ε α)) : SideBySide none [] [] cs (all cs)
  buffered_sideBySide (limit : Nat) (positive : 0 < limit) (cs : List (Computation ω ε α)) :
    SideBySide (some limit) [] [] cs (buffered limit cs)

end RuleLang
