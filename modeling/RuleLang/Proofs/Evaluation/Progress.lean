import Mathlib.Data.Finset.Max
import Mathlib.Order.Interval.Finset.Nat
import RuleLang.Proofs.Evaluation.Log

/-!
# How far the members of lists have come

An evaluation is watched by one that writes down, for every member of an array and for every argument of
a call, when it takes its first step and when it has its outcome. What has been written so far says which
members of a list are under way.

* `Mark`: what is written down, and for which member of which list.
* `Evaluator.monitored`: the evaluation of a tree with its marks.
* `Mark.underWay`: the members of a list that are under way at a moment.
* `Paced`: at every moment a member is under way only if those well before it have finished.
* `Computation.SideBySide.writes_paced`: computations of which only so many are held are paced.
-/

namespace RuleLang

/-- What is written down about the members of lists: of the elements of an array, or of the arguments of
a call, with the place of the array or the call and the position of the member. -/
inductive Mark where
  /-- A member is about to take its first step. -/
  | started (list : Site) (i : Nat)
  /-- A member has its outcome, be it a value or a failure. -/
  | finished (list : Site) (i : Nat)
  deriving DecidableEq

namespace Mark

/-- The place of the list of a mark. -/
def list : Mark → Site
  | started list _ => list
  | finished list _ => list

/-- The position of the member of a mark. -/
def index : Mark → Nat
  | started _ i => i
  | finished _ i => i

/-- The member of a list that a mark says has started. -/
def starts? (list : Site) : Mark → Option Nat
  | started place i => if place = list then some i else none
  | finished _ _ => none

/-- The members of a list that have started and not finished, by what has been written so far. -/
def underWay (list : Site) (moment : List Mark) : Finset Nat :=
  (moment.filterMap (starts? list)).toFinset.filter fun i => finished list i ∉ moment

/-- A member is under way when it has started and has not finished. -/
theorem mem_underWay_iff {list : Site} {moment : List Mark} {i : Nat} :
    i ∈ underWay list moment ↔ started list i ∈ moment ∧ finished list i ∉ moment := by
  have hstarts : i ∈ moment.filterMap (starts? list) ↔ started list i ∈ moment := by
    rw [List.mem_filterMap]
    constructor
    · rintro ⟨mark, hmark, hi⟩
      cases mark with
      | started place k =>
          obtain ⟨rfl, rfl⟩ : place = list ∧ k = i := by simpa [starts?] using hi
          exact hmark
      | finished place k => cases hi
    · intro h
      exact ⟨_, h, if_pos rfl⟩
  rw [underWay, Finset.mem_filter, List.mem_toFinset, hstarts]

end Mark

/-! ### Evaluation with marks -/

namespace Computation

variable {ω ε α E : Type}

/-- Writes an event with the outcome, whatever it is. -/
def closing (event : E) : Computation (ω × List E) ε α → Computation (ω × List E) ε α
  | finished outcome => emit event (finished outcome)
  | act effect next => act effect fun w => closing event (next w)
  | suspended next => suspended (closing event next)

/-- Writes an event ahead of the first step of a computation, and another one with its outcome. -/
def between (first last : E) (c : Computation (ω × List E) ε α) : Computation (ω × List E) ε α :=
  emit first (closing last c)

variable {T S : Logs E α} {c : Computation (ω × List E) ε α} {d : Computation ω ε α}

/-- A computation writes an event after what it writes, by the time of its outcome. -/
theorem Writes.closing (h : Writes T c) (event : E)
    (ended : ∀ es a?, T es a? → S es none ∧ S (es ++ [event]) a?) : Writes S (closing event c) := by
  induction h generalizing S with
  | finished outcome =>
      obtain ⟨before, after⟩ := ended _ _ outcome
      exact .emit before fun _ _ => .finished after
  | act start rest ih => exact .act (ended _ _ start).1 fun w log => ih w log ended
  | suspended start rest ih => exact .suspended (ended _ _ start).1 (ih ended)
  | emit start rest ih =>
      exact .emit (ended _ _ start).1 fun w log => ih w log fun es => ended (_ :: es)

/-- A computation between two events writes what it did, between the two. -/
theorem Writes.between (h : Writes T c) (first last : E) (start : S [] none)
    (ended : ∀ es a?, T es a? → S (first :: es) none ∧ S (first :: (es ++ [last])) a?) :
    Writes S (between first last c) :=
  .emit start fun _ _ => h.closing last ended

/-- A computation between two events does what it does without them. -/
theorem Watches.between (h : Watches c d) (first last : E) : Watches (between first last c) d := by
  refine .emit fun _ _ => ?_
  induction h with
  | finished outcome => exact .emit fun _ _ => .finished outcome
  | act rest ih => exact .act ih
  | suspended rest ih => exact .suspended ih
  | emit rest ih => exact .emit ih

end Computation

namespace Evaluator

variable {ω : Type}

/-- The members of a list, each with its marks. -/
def withMarks (list : Site) (members : List (Computation (ω × List Mark) RuleError Value)) :
    List (Computation (ω × List Mark) RuleError Value) :=
  members.zipIdx.map fun x => .between (.started list x.2) (.finished list x.2) x.1

/-- The members of a list with their marks, as many under way as the configuration allows. -/
def gatherMarked (e : Evaluator ω) (watching : Combinators (ω × List Mark) RuleError Value)
    (list : Site) (members : List (Computation (ω × List Mark) RuleError Value)) :
    Computation (ω × List Mark) RuleError (List Value) :=
  gather ⟨[], e.config, watching⟩ (withMarks list members)

mutual

/-- The evaluation of the node at a place, with the marks of all lists in it. -/
def monitored (e : Evaluator ω) (watching : Combinators (ω × List Mark) RuleError Value) (scope : Scope)
    (site : Site) : Node → Computation (ω × List Mark) RuleError Value
  | .literal _ value _ => .pure value
  | .identifier _ name => (e.named scope name).quietly
  | .unary _ op operand => .map op.apply (monitored e watching scope (0 :: site) operand)
  | .binary _ op left right =>
    .map (fun (a, b) => op.apply a b)
      (watching.both (monitored e watching scope (0 :: site) left)
        (monitored e watching scope (1 :: site) right))
  | .logical _ op operands =>
    chain op ((operands.map Node.weight).zip (monitoredFrom e watching scope site 0 operands))
  | .array _ elements =>
    .map .array (e.gatherMarked watching site (monitoredFrom e watching scope site 0 elements))
  | .conditional _ test consequent alternate =>
    .bind (monitored e watching scope (0 :: site) test) fun value =>
      if value.isTruthy then monitored e watching scope (1 :: site) consequent
      else monitored e watching scope (2 :: site) alternate
  | .sequence _ expressions => .inOrder .undefined (monitoredFrom e watching scope site 0 expressions)
  | .call _ callee arguments =>
    match e.callee? callee with
    | some (name, feature) =>
      .bind (e.gatherMarked watching site (monitoredFrom e watching scope site 1 arguments))
        fun values => (Computation.mapError (.featureFailed name) (feature.call scope values)).quietly
    | none => .fail (.notCallable ("`" ++ callee.text ++ "` is not a feature"))
  | .member _ object path =>
    .bind (monitored e watching scope (0 :: site) object) fun value =>
      (e.memberOf object path value).quietly

/-- The evaluations of the children of a place from a position on, with the marks in them. -/
def monitoredFrom (e : Evaluator ω) (watching : Combinators (ω × List Mark) RuleError Value)
    (scope : Scope) (site : Site) (start : Nat) :
    List Node → List (Computation (ω × List Mark) RuleError Value)
  | [] => []
  | node :: rest =>
    monitored e watching scope (start :: site) node ::
      monitoredFrom e watching scope site (start + 1) rest

end

/-- The children of a place are evaluated each at its own place. -/
theorem monitoredFrom_eq_map (e : Evaluator ω)
    (watching : Combinators (ω × List Mark) RuleError Value) (scope : Scope) (site : Site) (start : Nat)
    (nodes : List Node) :
    e.monitoredFrom watching scope site start nodes =
      (nodes.zipIdx start).map fun x => e.monitored watching scope (x.2 :: site) x.1 := by
  induction nodes generalizing start with
  | nil => rfl
  | cons node rest ih => rw [monitoredFrom, List.zipIdx_cons, List.map_cons, ih]

end Evaluator

/-! ### Moments -/

/-- At a moment, a member of a list has started only if those that stand `limit` or more places before it
have finished. -/
def Spaced (limit : Nat) (list : Site) (moment : List Mark) : Prop :=
  ∀ i j, Mark.started list i ∈ moment → j + limit ≤ i → Mark.finished list j ∈ moment

/-- At every moment of a log the members of a list are spaced. -/
def Paced (limit : Nat) (list : Site) (log : List Mark) : Prop :=
  ∀ moment, moment <+: log → Spaced limit list moment

/-- A log says nothing of a list. -/
def Silent (list : Site) (log : List Mark) : Prop :=
  ∀ mark ∈ log, mark.list ≠ list

variable {limit i : Nat} {list : Site} {log log' merged moment : List Mark} {mark : Mark}

/-- Of members that are spaced, no more are under way than the limit says: they stand close to the last
of them. -/
theorem Spaced.card_underWay_le (h : Spaced limit list moment) :
    (Mark.underWay list moment).card ≤ limit := by
  rcases (Mark.underWay list moment).eq_empty_or_nonempty with hempty | hnonempty
  · rw [hempty, Finset.card_empty]
    exact Nat.zero_le limit
  · obtain ⟨last, hlast, hmax⟩ := (Mark.underWay list moment).exists_max_image id hnonempty
    have hlast := (Mark.mem_underWay_iff.mp hlast).1
    have close : Mark.underWay list moment ⊆ Finset.Ico (last + 1 - limit) (last + 1) := by
      intro i hi
      have hle : i ≤ last := hmax i hi
      have hnear : ¬ i + limit ≤ last := fun hfar =>
        (Mark.mem_underWay_iff.mp hi).2 (h last i hlast hfar)
      rw [Finset.mem_Ico]
      omega
    calc (Mark.underWay list moment).card
        ≤ (Finset.Ico (last + 1 - limit) (last + 1)).card := Finset.card_le_card close
      _ = last + 1 - (last + 1 - limit) := Nat.card_Ico _ _
      _ ≤ limit := by omega

/-- A log that says nothing of a list keeps to every limit for it. -/
theorem Silent.paced (h : Silent list log) : Paced limit list log := by
  intro moment hmoment i j hstarted
  exact absurd rfl (h _ (hmoment.subset hstarted))

/-- The empty log keeps to every limit. -/
theorem paced_nil : Paced limit list [] :=
  Silent.paced (List.forall_mem_nil _)

/-- A log stays paced when a member starts in time, or something else happens. -/
theorem Paced.concat (h : Paced limit list log)
    (timely : ∀ i, mark = .started list i → ∀ j, j + limit ≤ i → Mark.finished list j ∈ log) :
    Paced limit list (log ++ [mark]) := by
  intro moment hmoment i j hstarted hle
  rcases List.prefix_concat_iff.mp hmoment with rfl | hmoment
  · apply List.mem_append_left
    rcases List.mem_append.mp hstarted with hstarted | hstarted
    · exact h log (List.prefix_refl log) i j hstarted hle
    · exact timely i (List.mem_singleton.mp hstarted).symm j hle
  · exact h moment hmoment i j hstarted hle

/-- A log stays paced when it is merged with one that says nothing of the list. -/
theorem Paced.shuffle (h : Paced limit list log) (silent : Silent list log')
    (merge : Shuffle log log' merged) : Paced limit list merged := by
  intro moment hmoment i j hstarted hle
  obtain ⟨us, vs, hus, hvs, hmerge⟩ := merge.exists_prefix hmoment
  rw [hmerge.mem_iff] at hstarted ⊢
  rcases hstarted with hstarted | hstarted
  · exact .inl (h us hus i j hstarted hle)
  · exact absurd rfl (silent _ (hvs.subset hstarted))

/-! ### A window of members under way -/

namespace Computation

variable {ω ε α : Type}

/-- What a member of a list may write after what has been written before: of the marks of the list only
its own, and the last of them by the time of its answer. -/
def MemberLogs (list : Site) (i : Nat) (past : List Mark) : Logs Mark α := fun es a? =>
  (∀ mark ∈ es, mark.list = list → mark.index = i) ∧
    (a?.isSome → Mark.finished list i ∈ past ++ es)

/-- What is known of the members that are left of a list: those before them have finished, each of them
writes its own marks, and what they write together is allowed as long as the whole log is paced. -/
structure Window (limit : Nat) (list : Site) (past : List Mark) (answered : Nat)
    (Ts : List (Logs Mark α)) (U : Logs Mark (List α)) : Prop where
  paced : Paced limit list past
  finished : ∀ j < answered, Mark.finished list j ∈ past
  members : ∀ x ∈ Ts.zipIdx answered, ∀ es a?, x.1 es a? → MemberLogs list x.2 past es a?
  allows : ∀ es as?, Paced limit list (past ++ es) → U es as?

/-- What a member may write after an event that is not its own, it may write after the event. -/
theorem MemberLogs.later {past es : List Mark} {a? : Option α} (h : MemberLogs list i past es a?)
    (mark : Mark) : MemberLogs list i (past ++ [mark]) es a? := by
  refine ⟨h.1, fun hsome => ?_⟩
  rw [List.append_assoc, List.singleton_append]
  have hfinished := h.2 hsome
  rw [List.mem_append] at hfinished ⊢
  exact hfinished.imp_right (List.mem_cons_of_mem mark)

/-- A window stays one as long as only the first `limit` of its members write anything: a member that
starts has less than `limit` places to the first that is left, and all before that have finished. -/
theorem invariant_window (limit : Nat) (list : Site) :
    Invariant (some limit) fun answered (Ts : List (Logs Mark α)) U =>
      ∃ past, Window limit list past answered Ts U where
  start front _ _ _ known _ start := by
    obtain ⟨past, window⟩ := known
    exact window.allows [] none (by simpa using window.paced)
  emit {n} front back T U mark known early begun := by
    obtain ⟨past, window⟩ := known
    have members := window.members
    rw [List.zipIdx_append, List.zipIdx_cons, List.forall_mem_append, List.forall_mem_cons] at members
    obtain ⟨before, own, behind⟩ := members
    obtain ⟨a?, hstart⟩ := begun
    have hindex := (own [mark] a? hstart).1 mark (List.mem_singleton_self mark)
    refine ⟨past ++ [mark], ?_, ?_, ?_, ?_⟩
    · apply window.paced.concat
      rintro i rfl j hle
      have hi : i = n + front.length := hindex rfl
      have hearly := early limit rfl
      exact window.finished j (by omega)
    · exact fun j hj => List.mem_append_left _ (window.finished j hj)
    · rw [List.zipIdx_append, List.zipIdx_cons, List.forall_mem_append, List.forall_mem_cons]
      refine ⟨fun x hx es a? h => (before x hx es a? h).later mark, fun es a? h => ?_,
        fun x hx es a? h => (behind x hx es a? h).later mark⟩
      have hown := own (mark :: es) a? h
      refine ⟨fun other hother => hown.1 other (List.mem_cons_of_mem mark hother), fun hsome => ?_⟩
      rw [List.append_assoc, List.singleton_append]
      exact hown.2 hsome
    · intro es as? h
      rw [List.append_assoc, List.singleton_append] at h
      exact window.allows (mark :: es) as? h
  answer known ended := by
    obtain ⟨past, window⟩ := known
    have members := window.members
    rw [List.zipIdx_cons, List.forall_mem_cons] at members
    have hfinished := (members.1 [] _ ended).2 rfl
    rw [List.append_nil] at hfinished
    refine ⟨past, window.paced, fun j hj => ?_, members.2, fun es as? => window.allows es _⟩
    rcases Nat.lt_succ_iff_lt_or_eq.mp hj with hj | rfl
    · exact window.finished j hj
    · exact hfinished
  nil known := by
    obtain ⟨past, window⟩ := known
    exact window.allows [] _ (by simpa using window.paced)

/-- Members of a list of which only so many are held at a time are paced. -/
theorem SideBySide.writes_paced {ι : Type} {limit : Nat} {list : Site} {items : List ι}
    {c : ι × Nat → Computation (ω × List Mark) ε α} {joined : Computation (ω × List Mark) ε (List α)}
    (h : SideBySide (some limit) [] [] (items.zipIdx.map c) joined)
    (members : ∀ x ∈ items.zipIdx, Writes (MemberLogs list x.2 []) (c x)) :
    Writes (fun es _ => Paced limit list es) joined := by
  apply h.writes (invariant_window limit list) (by simp) (forall₂_writes members)
  refine ⟨[], paced_nil, by simp, ?_, fun es as? h => h⟩
  intro x hx es a? hes
  -- What a member may write goes by its position.
  have hlog := List.mem_zipIdx_iff_getElem?.mp hx
  rw [List.getElem?_map, List.getElem?_zipIdx, Option.map_map, Option.map_eq_some_iff] at hlog
  obtain ⟨item, -, hitem⟩ := hlog
  rwa [← hitem, Function.comp_apply, Nat.zero_add] at hes

end Computation

end RuleLang
