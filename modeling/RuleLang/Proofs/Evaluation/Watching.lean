import RuleLang.Proofs.Evaluation.Interleaving
import RuleLang.Proofs.Evaluation.Outcome
import RuleLang.Proofs.Success

/-!
# Computations that keep a log

A computation is watched by one over a world with a log. The watching computation does what the watched
one does, and besides writes events. What it may have written is said together with the answer, or without
one as long as there is none; it is then known of computations one after another and side by side, also
when one of them fails and the others are dropped half-way.

* `Computation.emit`, `Computation.recording`, `Computation.quietly`: writing an event, writing the
  answer, and writing nothing.
* `Computation.Watches`, `Combinators.Watches`: doing what is done without a log.
* `Computation.Writes`: writing what a specification allows.
* `Computation.Writes.run_of_watches`: a run with a log is the run without, and the log is as specified.
* `Computation.Jointly`, `Computation.InTurn`: the logs of any number of computations, side by side or
  one after another.
* `Computation.Invariant`: what computations side by side keep, event by event.
* `Computation.SideBySide.writes`: they write what it allows.
-/

namespace RuleLang

namespace Computation

variable {ω ε α β E : Type}

/-- Writes an event to the end of the log. -/
def emit (event : E) (rest : Computation (ω × List E) ε α) : Computation (ω × List E) ε α :=
  .act (fun w => (w.1, w.2 ++ [event])) fun _ => rest

/-- A computation over a world with a log, to which it writes nothing. -/
def quietly : Computation ω ε α → Computation (ω × List E) ε α
  | finished outcome => finished outcome
  | act effect next => act (fun w => (effect w.1, w.2)) fun w => quietly (next w.1)
  | suspended next => suspended (quietly next)

/-- Writes an event with the answer. -/
def recording (event : α → E) (c : Computation (ω × List E) ε α) : Computation (ω × List E) ε α :=
  bind c fun a => emit (event a) (pure a)

/-- What a computation may have written by the time of its answer, or so far if it has none. -/
abbrev Logs (E α : Type) := List E → Option α → Prop

/-- What may still be written after an event. -/
def Logs.after (T : Logs E α) (event : E) : Logs E α :=
  fun es => T (event :: es)

/-- A computation over worlds with a log does what another one does without it, and besides writes
events. -/
inductive Watches : Computation (ω × List E) ε α → Computation ω ε α → Prop
  | finished (outcome : Except ε α) : Watches (.finished outcome) (.finished outcome)
  | act {effect : ω → ω} {next : ω × List E → Computation (ω × List E) ε α}
      {next' : ω → Computation ω ε α} (rest : ∀ w log, Watches (next (w, log)) (next' w)) :
      Watches (.act (fun w => (effect w.1, w.2)) next) (.act effect next')
  | suspended {next : Computation (ω × List E) ε α} {next' : Computation ω ε α}
      (rest : Watches next next') : Watches (.suspended next) (.suspended next')
  | emit {event : E} {next : ω × List E → Computation (ω × List E) ε α} {d : Computation ω ε α}
      (rest : ∀ w log, Watches (next (w, log)) d) :
      Watches (.act (fun w => (w.1, w.2 ++ [event])) next) d

/-- A computation over worlds with a log writes what is allowed. -/
inductive Writes : Logs E α → Computation (ω × List E) ε α → Prop
  | finished {T : Logs E α} {outcome : Except ε α} (ended : T [] outcome.toOption) :
      Writes T (.finished outcome)
  | act {T : Logs E α} {effect : ω → ω} {next : ω × List E → Computation (ω × List E) ε α}
      (start : T [] none) (rest : ∀ w log, Writes T (next (w, log))) :
      Writes T (.act (fun w => (effect w.1, w.2)) next)
  | suspended {T : Logs E α} {next : Computation (ω × List E) ε α} (start : T [] none)
      (rest : Writes T next) : Writes T (.suspended next)
  | emit {T : Logs E α} {event : E} {next : ω × List E → Computation (ω × List E) ε α}
      (start : T [] none) (rest : ∀ w log, Writes (T.after event) (next (w, log))) :
      Writes T (.act (fun w => (w.1, w.2 ++ [event])) next)

variable {T : Logs E α} {U : Logs E β} {c : Computation (ω × List E) ε α} {d : Computation ω ε α}

namespace Watches

/-- A run with a log has the outcome and leaves the world of the run without it. -/
theorem run (h : Watches c d) (w : ω) (log : List E) :
    (c.run (w, log)).1 = (d.run w).1 ∧ (c.run (w, log)).2.1 = (d.run w).2 := by
  induction h generalizing w log with
  | finished outcome => exact ⟨rfl, rfl⟩
  | act rest ih => exact ih w log _ log
  | suspended rest ih => exact ih w log
  | emit rest ih => exact ih w log w _

/-- A changed outcome. -/
theorem mapOutcome (h : Watches c d) (f : Except ε α → Except ε β) :
    Watches (mapOutcome f c) (mapOutcome f d) := by
  induction h with
  | finished outcome => exact .finished _
  | act rest ih => exact .act ih
  | suspended rest ih => exact .suspended ih
  | emit rest ih => exact .emit ih

/-- A computation that writes nothing does what it does without a log. -/
theorem quietly (d : Computation ω ε α) : Watches (E := E) (quietly d) d := by
  induction d with
  | finished outcome => exact .finished outcome
  | act effect next ih => exact .act fun w log => ih w
  | suspended next ih => exact .suspended ih

/-- One computation after another. -/
theorem bind {next : α → Computation (ω × List E) ε β} {next' : α → Computation ω ε β}
    (h : Watches c d) (hnext : ∀ a, Watches (next a) (next' a)) :
    Watches (bind c next) (bind d next') := by
  induction h with
  | finished outcome =>
      cases outcome with
      | ok a => exact hnext a
      | error e => exact .finished _
  | act rest ih => exact .act ih
  | suspended rest ih => exact .suspended ih
  | emit rest ih => exact .emit ih

/-- Writing the answer is writing only. -/
theorem recording (h : Watches c d) (event : α → E) : Watches (recording event c) d := by
  induction h with
  | finished outcome =>
      cases outcome with
      | ok a => exact .emit fun _ _ => .finished _
      | error e => exact .finished _
  | act rest ih => exact .act ih
  | suspended rest ih => exact .suspended ih
  | emit rest ih => exact .emit ih

end Watches

namespace Writes

/-- In a run the log grows by what is allowed. -/
theorem run (h : Writes T c) (w : ω) (log : List E) :
    ∃ es, (c.run (w, log)).2.2 = log ++ es ∧ T es (c.run (w, log)).1.toOption := by
  induction h generalizing w log with
  | finished ended => exact ⟨[], (List.append_nil log).symm, ended⟩
  | act start rest ih => exact ih w log _ log
  | suspended start rest ih => exact ih w log
  | emit start rest ih =>
      obtain ⟨es, hrun, hes⟩ := ih w log w (log ++ [_])
      exact ⟨_ :: es, by simpa [Computation.run] using hrun, hes⟩

/-- Writing nothing is allowed at the start, with an answer or without one. -/
theorem exists_start (h : Writes T c) : ∃ a?, T [] a? := by
  cases h with
  | finished ended => exact ⟨_, ended⟩
  | act start rest | suspended start rest | emit start rest => exact ⟨none, start⟩

/-- What is allowed may be widened. -/
theorem mono {S : Logs E α} (h : Writes T c) (himp : ∀ es a?, T es a? → S es a?) : Writes S c := by
  induction h generalizing S with
  | finished ended => exact .finished (himp _ _ ended)
  | act start rest ih => exact .act (himp _ _ start) fun w log => ih w log himp
  | suspended start rest ih => exact .suspended (himp _ _ start) (ih himp)
  | emit start rest ih => exact .emit (himp _ _ start) fun w log => ih w log fun es a? h => himp _ _ h

/-- A changed outcome, where the change keeps whether there is an answer. -/
theorem mapOutcome {f : Except ε α → Except ε β} (h : Writes T c)
    (started : ∀ es, T es none → U es none)
    (ended : ∀ es outcome, T es outcome.toOption → U es (f outcome).toOption) :
    Writes U (mapOutcome f c) := by
  induction h generalizing U with
  | finished hend => exact .finished (ended _ _ hend)
  | act start rest ih => exact .act (started _ start) fun w log => ih w log started ended
  | suspended start rest ih => exact .suspended (started _ start) (ih started ended)
  | emit start rest ih =>
      exact .emit (started _ start) fun w log =>
        ih w log (fun es => started (_ :: es)) fun es => ended (_ :: es)

/-- A changed answer. -/
theorem map (h : Writes T c) (f : α → β) (himp : ∀ es a?, T es a? → U es (a?.map f)) :
    Writes U (map f c) := by
  refine h.mapOutcome (fun es h => himp es none h) fun es outcome h => ?_
  cases outcome with
  | ok a => exact himp es _ h
  | error e => exact himp es _ h

/-- A changed failure. -/
theorem mapError (h : Writes T c) (f : ε → ε) : Writes T (mapError f c) := by
  refine h.mapOutcome (fun es h => h) fun es outcome h => ?_
  cases outcome with
  | ok a => exact h
  | error e => exact h

/-- What a computation with a changed answer writes, the computation writes. -/
theorem of_map {f : α → β} (h : Writes U (Computation.map f c)) :
    Writes (fun es a? => U es (a?.map f)) c := by
  induction c generalizing U with
  | finished outcome =>
      cases h with
      | finished ended =>
          cases outcome with
          | ok a => exact .finished ended
          | error e => exact .finished ended
  | act effect next ih =>
      change Writes U (.act effect fun w => Computation.map f (next w)) at h
      cases h with
      | act start rest => exact .act start fun w log => ih (w, log) (rest w log)
      | emit start rest => exact .emit start fun w log => ih (w, log) (rest w log)
  | suspended next ih =>
      cases h with
      | suspended start rest => exact .suspended start (ih rest)

/-- A computation that writes nothing. -/
theorem quietly (h : ∀ a?, T [] a?) (d : Computation ω ε α) : Writes T (quietly d) := by
  induction d with
  | finished outcome => exact .finished (h _)
  | act effect next ih => exact .act (h none) fun w log => ih w
  | suspended next ih => exact .suspended (h none) ih

/-- One computation after another writes what the first does and, after its answer, what the second
does. -/
theorem bind {next : α → Computation (ω × List E) ε β} (h : Writes T c)
    (started : ∀ es, T es none → U es none)
    (answered : ∀ es a, T es (some a) → Writes (fun es' => U (es ++ es')) (next a)) :
    Writes U (bind c next) := by
  induction h generalizing U with
  | @finished T outcome ended =>
      cases outcome with
      | ok a => exact answered [] a ended
      | error e => exact .finished (started [] ended)
  | act start rest ih => exact .act (started _ start) fun w log => ih w log started answered
  | suspended start rest ih => exact .suspended (started _ start) (ih started answered)
  | emit start rest ih =>
      exact .emit (started _ start) fun w log =>
        ih w log (fun es => started (_ :: es)) fun es => answered (_ :: es)

/-- A computation that writes an event with its answer. -/
theorem recording {S : Logs E α} (h : Writes T c) (event : α → E)
    (started : ∀ es, T es none → S es none)
    (answered : ∀ es a, T es (some a) → S es none ∧ S (es ++ [event a]) (some a)) :
    Writes S (recording event c) := by
  apply h.bind started
  intro es a ha
  obtain ⟨before, after⟩ := answered es a ha
  exact .emit (by simpa using before) fun _ _ => .finished after

/-- A run of a computation that watches another one is the run of that one, and the log grows by what is
allowed. -/
theorem run_of_watches (h : Writes T c) (watches : Watches c d) (w : ω) (log : List E) :
    ∃ es, c.run (w, log) = ((d.run w).1, (d.run w).2, log ++ es) ∧ T es (d.run w).1.toOption := by
  obtain ⟨es, hlog, hes⟩ := h.run w log
  obtain ⟨houtcome, hworld⟩ := watches.run w log
  rw [houtcome] at hes
  exact ⟨es, Prod.ext houtcome (Prod.ext hworld hlog), hes⟩

end Writes

/-! ### Several logs -/

/-- What computations side by side may have written, with the answer of each that has one. -/
inductive Abreast : List (Logs E α) → List E → List (Option α) → Prop
  | nil : Abreast [] [] []
  | cons {T : Logs E α} {Ts : List (Logs E α)} {xs ys zs : List E} {a? : Option α}
      {answers : List (Option α)} (first : T xs a?) (rest : Abreast Ts ys answers)
      (merge : Shuffle xs ys zs) : Abreast (T :: Ts) zs (a? :: answers)

/-- What computations side by side may have written, with all answers if all have one. -/
def Jointly (Ts : List (Logs E α)) : Logs E (List α) :=
  fun es as? => ∃ answers, Abreast Ts es answers ∧ answers.mapM id = as?

/-- Whoever of the computations side by side writes an event, they write it together. -/
theorem Abreast.emit {front back : List (Logs E α)} {T : Logs E α} {event : E} {es : List E}
    {answers : List (Option α)} (h : Abreast (front ++ T.after event :: back) es answers) :
    Abreast (front ++ T :: back) (event :: es) answers := by
  induction front generalizing es answers with
  | nil =>
      cases h with
      | cons first rest merge => exact .cons first rest (.left merge)
  | cons S front ih =>
      cases h with
      | cons first rest merge => exact .cons first (ih rest) (.right merge)

/-- Some log of computations side by side is empty, if each of them may start with one. -/
theorem exists_abreast_nil {Ts : List (Logs E α)} (begun : ∀ T ∈ Ts, ∃ a?, T [] a?) :
    ∃ answers, Abreast Ts [] answers := by
  induction Ts with
  | nil => exact ⟨[], .nil⟩
  | cons T Ts ih =>
      rw [List.forall_mem_cons] at begun
      obtain ⟨a?, ha⟩ := begun.1
      obtain ⟨answers, hanswers⟩ := ih begun.2
      exact ⟨a? :: answers, .cons ha hanswers .nil⟩

/-- Where one of the computations has no answer at the start, theirs is missing at the start. -/
theorem exists_abreast_missing (front : List (Logs E α)) {back : List (Logs E α)} {T : Logs E α}
    (begun : ∀ S ∈ front ++ T :: back, ∃ a?, S [] a?) (start : T [] none) :
    ∃ answers, Abreast (front ++ T :: back) [] answers ∧ none ∈ answers := by
  induction front with
  | nil =>
      obtain ⟨answers, hanswers⟩ := exists_abreast_nil fun S hS => begun S (List.mem_cons_of_mem T hS)
      exact ⟨none :: answers, .cons start hanswers .nil, List.mem_cons_self⟩
  | cons S front ih =>
      rw [List.cons_append, List.forall_mem_cons] at begun
      obtain ⟨a?, ha⟩ := begun.1
      obtain ⟨answers, hanswers, hmem⟩ := ih begun.2
      exact ⟨a? :: answers, .cons ha hanswers .nil, List.mem_cons_of_mem _ hmem⟩

/-! ### Side by side -/

/-- What is known of computations in a row, after `answered` others that stood before them, by what each of
them may still write and what they may still write together. It is kept as long as only as many of the
first of the row write anything as a limit allows. -/
structure Invariant (limit? : Option Nat)
    (Known : Nat → List (Logs E α) → Logs E (List α) → Prop) : Prop where
  /-- Nothing is written while one of them has no answer. -/
  start {answered : Nat} (front : List (Logs E α)) {back : List (Logs E α)} {T : Logs E α}
    {U : Logs E (List α)} (known : Known answered (front ++ T :: back) U)
    (begun : ∀ S ∈ front ++ T :: back, ∃ a?, S [] a?) (start : T [] none) : U [] none
  /-- One of the first writes an event. -/
  emit {answered : Nat} (front : List (Logs E α)) {back : List (Logs E α)} {T : Logs E α}
    {U : Logs E (List α)} {event : E} (known : Known answered (front ++ T :: back) U)
    (early : ∀ limit ∈ limit?, front.length < limit) (begun : ∃ a?, T [event] a?) :
    Known answered (front ++ T.after event :: back) (U.after event)
  /-- The first has answered and leaves the row. -/
  answer {answered : Nat} {Ts : List (Logs E α)} {T : Logs E α} {U : Logs E (List α)} {a : α}
    (known : Known answered (T :: Ts) U) (ended : T [] (some a)) :
    Known (answered + 1) Ts fun es as? => U es (as?.map (a :: ·))
  /-- All have answered. -/
  nil {answered : Nat} {U : Logs E (List α)} (known : Known answered [] U) : U [] (some [])

/-- In the place of a computation stands what it may write. -/
theorem exists_logs_of_held {Ts : List (Logs E α)} {before after : List (Computation (ω × List E) ε α)}
    (h : List.Forall₂ Writes Ts (before ++ c :: after)) :
    ∃ front T back, Ts = front ++ T :: back ∧ front.length = before.length ∧ Writes T c ∧
      ∀ {S d}, Writes S d → List.Forall₂ Writes (front ++ S :: back) (before ++ d :: after) := by
  induction before generalizing Ts with
  | nil =>
      cases h with
      | @cons T _ Ts _ head tail => exact ⟨[], T, Ts, rfl, rfl, head, fun hd => .cons hd tail⟩
  | cons b before ih =>
      cases h with
      | @cons S _ Ts _ head tail =>
          obtain ⟨front, T, back, rfl, hlength, hc, replace⟩ := ih tail
          exact ⟨S :: front, T, back, rfl, congrArg Nat.succ hlength, hc, fun hd => .cons head (replace hd)⟩

/-- Computations that write each what it may, taken together. -/
theorem forall₂_writes {ι : Type} {T : ι → Logs E α} {c : ι → Computation (ω × List E) ε α}
    {items : List ι} (h : ∀ x ∈ items, Writes (T x) (c x)) :
    List.Forall₂ Writes (items.map T) (items.map c) := by
  rw [List.forall₂_map_left_iff, List.forall₂_map_right_iff, List.forall₂_same]
  exact h

/-- Each of several computations may start with an empty log. -/
theorem begun_of_writes {Ts : List (Logs E α)} {cs : List (Computation (ω × List E) ε α)}
    (h : List.Forall₂ Writes Ts cs) : ∀ T ∈ Ts, ∃ a?, T [] a? := by
  induction h with
  | nil => exact List.forall_mem_nil _
  | cons head tail ih => exact List.forall_mem_cons.mpr ⟨head.exists_start, ih⟩

/-- Computations side by side write nothing but what an invariant allows. The induction is on the steps
that they take; only those that are held write anything, and of these no more than the limit allows. -/
theorem SideBySide.writes {limit? : Option Nat}
    {Known : Nat → List (Logs E α) → Logs E (List α) → Prop} (inv : Invariant limit? Known)
    {answers : List α} {held rest : List (Computation (ω × List E) ε α)}
    {joined : Computation (ω × List E) ε (List α)} (h : SideBySide limit? answers held rest joined)
    (room : ∀ limit ∈ limit?, held.length ≤ limit) {Ts : List (Logs E α)} {U : Logs E (List α)}
    (each : List.Forall₂ Writes Ts (held ++ rest))
    (known : Known answers.length Ts fun es as? => U es (as?.map (answers ++ ·))) : Writes U joined := by
  -- As long as one that is held has no answer, the others need not have written anything.
  have idle {answers : List α} {front back : List (Logs E α)} {T : Logs E α} {U : Logs E (List α)}
      {cs : List (Computation (ω × List E) ε α)} (each : List.Forall₂ Writes (front ++ T :: back) cs)
      (known : Known answers.length (front ++ T :: back) fun es as? => U es (as?.map (answers ++ ·)))
      (start : T [] none) : U [] none := by
    have begun := inv.start front known (begun_of_writes each) start
    exact begun
  induction h generalizing Ts U with
  | take hroom go ih =>
      refine ih (fun limit hlimit => ?_) (by simpa using each) known
      rw [List.length_append, List.length_singleton]
      exact hroom limit hlimit
  | @yield answers held rest a joined go ih =>
      cases each with
      | cons head tail =>
          cases head with
          | finished ended =>
              refine ih (fun limit hlimit => Nat.le_of_succ_le (room limit hlimit)) tail ?_
              simpa [Function.comp_def] using inv.answer known ended
  | @act answers before after rest effect next joined go ih =>
      rw [List.append_assoc, List.cons_append] at each
      obtain ⟨front, T, back, rfl, hlength, hact, replace⟩ := exists_logs_of_held each
      cases hact with
      | act start next =>
          refine .act (idle each known start) fun w log => ?_
          exact ih (w, log) (by simpa using room) (by simpa using replace (next w log)) known
      | emit start next =>
          refine .emit (idle each known start) fun w log => ?_
          refine ih (w, log) (by simpa using room) (by simpa using replace (next w log)) ?_
          refine inv.emit front known (fun limit hlimit => ?_) (next w log).exists_start
          have hheld := room limit hlimit
          rw [List.length_append, List.length_cons, ← hlength] at hheld
          omega
  | @resume answers before after rest c joined go ih =>
      rw [List.append_assoc, List.cons_append] at each
      obtain ⟨front, T, back, rfl, -, hsuspended, replace⟩ := exists_logs_of_held each
      cases hsuspended with
      | suspended start next => exact ih (by simpa using room) (by simpa using replace next) known
  | @suspend answers before after rest c joined go ih =>
      have again := ih room each known
      rw [List.append_assoc, List.cons_append] at each
      obtain ⟨front, T, back, rfl, -, hsuspended, -⟩ := exists_logs_of_held each
      cases hsuspended with
      | suspended start next => exact .suspended (idle each known start) again
  | @look answers before after rest c joined go ih =>
      have again := fun w => ih w room each known
      rw [List.append_assoc, List.cons_append] at each
      obtain ⟨front, T, back, rfl, -, hsuspended, -⟩ := exists_logs_of_held each
      cases hsuspended with
      | suspended start next =>
          have looks : Writes U (.act (fun w => (id w.1, w.2)) joined) :=
            .act (idle each known start) fun w log => again (w, log)
          exact looks
  | @fail answers before after rest e =>
      rw [List.append_assoc, List.cons_append] at each
      obtain ⟨front, T, back, rfl, -, hfailed, -⟩ := exists_logs_of_held each
      cases hfailed with
      | finished ended => exact .finished (idle each known ended)
  | done =>
      cases each
      exact .finished (by simpa [Except.toOption] using inv.nil known)

/-- What all logs of computations side by side are, is allowed. -/
theorem invariant_jointly (limit? : Option Nat) :
    Invariant limit? fun _ (Ts : List (Logs E α)) U => ∀ es as?, Jointly Ts es as? → U es as? where
  start front _ _ U known begun start := by
    obtain ⟨answers, habreast, hmem⟩ := exists_abreast_missing front begun start
    exact known [] none ⟨answers, habreast, mapM_eq_none_of_mem hmem⟩
  emit front _ _ _ event known _ _ es as? := by
    rintro ⟨answers, habreast, rfl⟩
    exact known (event :: es) _ ⟨answers, habreast.emit, rfl⟩
  answer known ended es as? := by
    rintro ⟨answers, habreast, rfl⟩
    exact known es _ ⟨_, .cons ended habreast (.nil_left es), mapM_some_cons _ _⟩
  nil known := known [] _ ⟨[], .nil, rfl⟩

/-- Computations side by side write what each of them does, merged. -/
theorem SideBySide.writes_jointly {limit? : Option Nat} {cs : List (Computation (ω × List E) ε α)}
    {joined : Computation (ω × List E) ε (List α)} (h : SideBySide limit? [] [] cs joined)
    {Ts : List (Logs E α)} (each : List.Forall₂ Writes Ts cs) : Writes (Jointly Ts) joined := by
  apply h.writes (invariant_jointly limit?) (by simp) each
  intro es as? jointly
  simpa using jointly

/-! ### One after another -/

/-- What computations one after another may have written, up to one whose answer `stops` the rest, with
the last answer; `last` is the answer before them. -/
inductive InTurn (stops : α → Bool) : List (Logs E α) → α → Logs E α
  | nil {last : α} : InTurn stops [] last [] (some last)
  | underway {T : Logs E α} {Ts : List (Logs E α)} {last : α} {es : List E} (first : T es none) :
      InTurn stops (T :: Ts) last es none
  | stop {T : Logs E α} {Ts : List (Logs E α)} {last a : α} {es : List E} (first : T es (some a))
      (stopped : stops a) : InTurn stops (T :: Ts) last es (some a)
  | step {T : Logs E α} {Ts : List (Logs E α)} {last a : α} {es es' : List E} {a? : Option α}
      (first : T es (some a)) (goes : ¬ stops a) (rest : InTurn stops Ts a es' a?) :
      InTurn stops (T :: Ts) last (es ++ es') a?

/-- One after another, computations write what each of them does, one after another. -/
theorem writes_inOrder {Ts : List (Logs E α)} {cs : List (Computation (ω × List E) ε α)}
    (each : List.Forall₂ Writes Ts cs) (last : α) :
    Writes (InTurn (fun _ => false) Ts last) (inOrder last cs) := by
  induction each generalizing last with
  | nil => exact .finished .nil
  | cons head tail ih =>
      refine head.bind (fun es h => .underway h) fun es a hfirst => ?_
      exact (ih a).mono fun es' a? h' => .step hfirst Bool.false_ne_true h'

/-- One after another, computations do what they do without a log. -/
theorem watches_inOrder {cs : List (Computation (ω × List E) ε α)} {ds : List (Computation ω ε α)}
    (each : List.Forall₂ Watches cs ds) (last : α) : Watches (inOrder last cs) (inOrder last ds) := by
  induction each generalizing last with
  | nil => exact .finished _
  | cons head tail ih => exact head.bind ih

end Computation

open RuleLang.Computation

/-- Ways to carry out computations over worlds with a log side by side do what other ways do without the
log: what is written down makes no difference to the order in which computations go on. -/
structure Combinators.Watches {ω ε α E : Type} (watching : Combinators (ω × List E) ε α)
    (watched : Combinators ω ε α) : Prop where
  both {c c' : Computation (ω × List E) ε α} {d d' : Computation ω ε α}
    (hc : Computation.Watches c d) (hc' : Computation.Watches c' d') :
    Computation.Watches (watching.both c c') (watched.both d d')
  all {cs : List (Computation (ω × List E) ε α)} {ds : List (Computation ω ε α)}
    (each : List.Forall₂ Computation.Watches cs ds) :
    Computation.Watches (watching.all cs) (watched.all ds)
  buffered (limit : Nat) {cs : List (Computation (ω × List E) ε α)} {ds : List (Computation ω ε α)}
    (each : List.Forall₂ Computation.Watches cs ds) :
    Computation.Watches (watching.buffered limit cs) (watched.buffered limit ds)

/-- Two computations side by side write what each of them does, merged. -/
theorem Combinators.writes_both {ω ε α E : Type} (combinators : Combinators (ω × List E) ε α)
    {T U : Logs E α} {c d : Computation (ω × List E) ε α} (hc : Writes T c) (hd : Writes U d) :
    Writes (fun es answers? => Jointly [T, U] es (answers?.map fun (a, b) => [a, b]))
      (combinators.both c d) :=
  ((combinators.both_sideBySide c d).writes_jointly (.cons hc (.cons hd .nil))).of_map

end RuleLang
