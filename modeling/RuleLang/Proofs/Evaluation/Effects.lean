import RuleLang.Proofs.Evaluation.Observed
import RuleLang.Proofs.Evaluation.Projection
import RuleLang.Proofs.Evaluation.Schedule
import RuleLang.Proofs.Evaluation.Turns

/-!
# Accounting for effects

What a log says of the calls of a tree: which were made, in which order, and which were left out.

* `Log.invocations`: how often a call has called its feature.
* `Log.ArgumentsFirst`, `Log.Separated`: what comes before a call, and what comes before anything that
  another part of the tree calls.
* `Log.Skipped`: the places that the evaluation has left out.
* `Evaluator.exists_log_accounts`: every evaluation accounts for its calls.
-/

namespace RuleLang

/-- Whether an event is that the call at a place calls its feature. -/
def Event.isInvocationOf (site : Site) : Event → Bool
  | invoked place => place = site
  | answered _ _ => false

namespace Log

/-- How often the call at a place has called its feature. -/
def invocations (log : List Event) (site : Site) : Nat :=
  log.countP (Event.isInvocationOf site)

/-- No call calls its feature before all of its arguments have their values. -/
def ArgumentsFirst (tree : Node) (log : List Event) : Prop :=
  ∀ site w callee arguments, tree.at? site = some (.call w callee arguments) →
    ∀ before after, log = before ++ .invoked site :: after →
      ∀ i < arguments.length, ∃ v, .answered ((i + 1) :: site) v ∈ before

/-- Everything that is called below one place has been called and has answered before anything is called
below another. -/
def Separated (log : List Event) (first second : Site) : Prop :=
  ∀ before after later, log = before ++ .invoked later :: after → second <:+ later →
    ∀ site, first <:+ site → .invoked site ∈ log →
      .invoked site ∈ before ∧ ∃ v, .answered site v ∈ before

/-- A place is left out: it stands in a branch that the test has not selected, or in an operand after
the first one that has decided its chain. -/
def Skipped (tree : Node) (log : List Event) (site : Site) : Prop :=
  ∃ place i node, (i :: place) <:+ site ∧ tree.at? place = some node ∧
    node.Skips (fun j v => .answered (j :: place) v ∈ log) i

end Log

/-! ### The calls of a node -/

variable {site : Site} {node : Node} {es : List Event} {v? : Option Value}

/-- By the time of its answer, everything that a node has called below it has answered. -/
theorem Trace.exists_answered (h : Trace site node es v?) (hsome : v?.isSome) {place : Site}
    (hcall : .invoked place ∈ es) : ∃ u, .answered place u ∈ es := by
  induction h with
  | underway traces woven ih => cases hsome
  | @closing site node parts es tail v? traces woven done closes ih =>
      have made : Made site node parts es := ⟨traces, woven⟩
      rcases List.mem_append.mp hcall with hcall | hcall
      · obtain ⟨p, hp, hevent, -⟩ := made.exists_part hcall
        obtain ⟨u, hu⟩ := ih p hp (done.answered p hp) hevent
        exact ⟨u, List.mem_append_left tail (made.mem_of_part hp hu)⟩
      · cases closes with
        | plain noCall => simp at hcall
        | invoked => cases hsome
        | @returned w u name arguments v =>
            obtain rfl : place = site := by simpa using hcall
            exact ⟨v, by simp⟩

/-- A log that has no events about a place has no calls there. -/
theorem Log.invocations_eq_zero (h : .invoked site ∉ log) : invocations log site = 0 := by
  refine List.countP_eq_zero.mpr fun event hevent hcall => ?_
  cases event with
  | invoked place => exact h (of_decide_eq_true hcall ▸ hevent)
  | answered place v => cases hcall

/-- What the call at a place does shows below the place. -/
theorem Log.invocations_filter (log : List Event) (site : Site) :
    invocations (log.filter (Event.isUnder site)) site = invocations log site := by
  rw [invocations, List.countP_filter]
  refine List.countP_congr fun event _ => ?_
  cases event with
  | invoked place =>
      simp only [Event.isInvocationOf, Event.isUnder, Event.site, Bool.and_eq_true, decide_eq_true_eq,
        and_iff_left_iff_imp]
      rintro rfl
      exact decide_eq_true (List.suffix_refl _)
  | answered place v => simp [Event.isInvocationOf]

/-- The children of a node do not make its call. -/
theorem Made.invocations_eq_zero {parts : List Part} (h : Made site node parts es) :
    Log.invocations es site = 0 :=
  Log.invocations_eq_zero fun hmem => h.site_ne hmem rfl

/-- A node makes its call at most once, and a call that has its answer has made it. -/
theorem Trace.invocations_eq (h : Trace site node es v?) :
    Log.invocations es site ≤ 1 ∧
      (v?.isSome → ∀ w callee arguments, node = .call w callee arguments →
        Log.invocations es site = 1) := by
  obtain ⟨parts, work, tail, made, rfl, -, hend⟩ := h.exists_made
  have hsum : Log.invocations (work ++ tail) site = Log.invocations tail site := by
    rw [Log.invocations, List.countP_append, ← Log.invocations, made.invocations_eq_zero, Nat.zero_add]
    rfl
  rw [hsum]
  rcases hend with ⟨rfl, rfl⟩ | ⟨-, closes⟩
  · exact ⟨Nat.zero_le 1, fun hsome => by cases hsome⟩
  · cases closes with
    | plain noCall =>
        refine ⟨by simp [Log.invocations, Event.isInvocationOf], fun _ w callee arguments hcall => ?_⟩
        exact absurd hcall (noCall w callee arguments)
    | invoked => simp [Log.invocations, Event.isInvocationOf]
    | returned => simp [Log.invocations, Event.isInvocationOf]

/-- What calls a feature at a place is the call there. -/
theorem Trace.exists_call (h : Trace site node es v?) (hcall : .invoked site ∈ es) :
    ∃ w callee arguments, node = .call w callee arguments := by
  obtain ⟨parts, work, tail, made, rfl, -, hend⟩ := h.exists_made
  have hwork : .invoked site ∉ work := fun hmem => made.site_ne hmem rfl
  rw [List.mem_append, or_iff_right hwork] at hcall
  rcases hend with ⟨rfl, -⟩ | ⟨-, closes⟩
  · exact absurd hcall List.not_mem_nil
  · cases closes with
    | plain noCall => simp at hcall
    | invoked | returned => exact ⟨_, _, _, rfl⟩

/-- Where a call calls its feature, its arguments have their values. -/
theorem Trace.argumentsFirst {w : Weight} {callee : Node} {arguments : List Node}
    (h : Trace site (.call w callee arguments) es v?) {before after : List Event}
    (hes : es = before ++ .invoked site :: after) {i : Nat} (hi : i < arguments.length) :
    ∃ v, .answered ((i + 1) :: site) v ∈ before := by
  obtain ⟨parts, work, tail, made, rfl, -, hend⟩ := h.exists_made
  have hwork : .invoked site ∉ work := fun hmem => made.site_ne hmem rfl
  have hcall : .invoked site ∈ work ++ tail := by rw [hes]; simp
  rcases hend with ⟨rfl, -⟩ | ⟨done, closes⟩
  · rw [List.append_nil] at hcall
    exact absurd hcall hwork
  · obtain ⟨rest, rfl, hrest⟩ : ∃ rest, tail = .invoked site :: rest ∧ .invoked site ∉ rest := by
      cases closes with
      | plain noCall => exact absurd rfl (noCall w callee arguments)
      | invoked => exact ⟨[], rfl, by simp⟩
      | @returned w u name arguments v => exact ⟨[.answered site v], rfl, by simp⟩
    obtain ⟨rfl, -, -⟩ := (List.append_cons_inj_of_notMem hwork hrest).mp hes
    have hposition : (arguments[i], i + 1) ∈ (Node.call w callee arguments).positions := by
      simp [Node.positions, List.mem_zipIdx_iff_le_and_getElem?_sub]
    rcases done.covered _ hposition with ⟨p, hp, hx⟩ | hskips
    · obtain ⟨v, hv⟩ := Option.isSome_iff_exists.mp (done.answered p hp)
      have hindex : p.index = i + 1 := congrArg Prod.snd hx
      exact ⟨v, made.answered_iff.mpr ⟨p, hp, hindex, hv⟩⟩
    · exact absurd hskips id

/-- What stands in front of an event that the front does not hold stands before it. -/
theorem mem_of_append_eq_of_notMem {front rest before after : List Event} {event : Event}
    (h : front ++ rest = before ++ event :: after) (hevent : event ∉ front) :
    ∀ x ∈ front, x ∈ before := by
  intro x hx
  rcases List.append_eq_append_iff.mp h with ⟨more, rfl, -⟩ | ⟨more, rfl, hmore⟩
  · exact List.mem_append_left more hx
  · cases more with
    | nil => simpa using hx
    | cons y more =>
        obtain ⟨rfl, -⟩ := List.cons.inj hmore
        exact absurd (by simp) hevent

/-- What is called below a child comes after everything that is called below a child before it. -/
theorem Trace.separated (h : Trace site node es v?) {i j : Nat} (hprecedes : node.Precedes i j) :
    Log.Separated es (i :: site) (j :: site) := by
  obtain ⟨parts, work, tail, made, rfl, own, -⟩ := h.exists_made
  intro before after later hlog hsecond place hfirst hcall
  have hlater : .invoked later ∈ work ++ tail := by simp [hlog]
  obtain ⟨p, hp, rfl, hpcall⟩ :=
    made.exists_part_of_suffix (mem_of_mem_append_own hcall own hfirst) hfirst
  obtain ⟨q, hq, rfl, -⟩ :=
    made.exists_part_of_suffix (mem_of_mem_append_own hlater own hsecond) hsecond
  obtain ⟨front, back, rfl, hfront, across⟩ := made.woven.exists_split hp hq hprecedes
  -- The later call is not made in front of its own part, so everything there comes before it.
  have hnotMem : .invoked later ∉ (front.map Part.events).flatten := by
    intro hmem
    obtain ⟨events, hevents, hmem⟩ := List.mem_flatten.mp hmem
    obtain ⟨r, hr, rfl⟩ := List.mem_map.mp hevents
    have hsuffix := (made.traces r (List.mem_append_left _ hr)).suffix _ hmem
    have hself := (across r hr).2
    rw [eq_of_cons_suffix hsuffix hsecond] at hself
    exact hself.asymm hself
  rw [(made.woven.sequenced hprecedes.isSequential).1, List.map_append, List.flatten_append,
    List.append_assoc] at hlog
  have hbefore : ∀ event ∈ p.events, event ∈ before := by
    intro event hevent
    apply mem_of_append_eq_of_notMem hlog hnotMem
    exact List.mem_flatten_of_mem (List.mem_map_of_mem hfront) hevent
  obtain ⟨v, hv⟩ := (made.traces p hp).exists_answered (across p hfront).1 hpcall
  exact ⟨hbefore _ hpcall, v, hbefore _ hv⟩

/-! ### The calls of a tree -/

section Tree

variable {tree : Node} {log : List Event}

/-- Every event is about a place in the tree. -/
theorem Trace.isSome_at? {root : Node} (h : Trace site node es v?) (hnode : root.at? site = some node) :
    ∀ event ∈ es, (root.at? event.site).isSome := by
  have among {site : Site} {node : Node} {parts : List Part} {es : List Event}
      (hnode : root.at? site = some node) (made : Made site node parts es)
      (ih : ∀ p ∈ parts, root.at? (p.index :: site) = some p.node →
        ∀ event ∈ p.events, (root.at? event.site).isSome) :
      ∀ event ∈ es, (root.at? event.site).isSome := by
    intro event hevent
    obtain ⟨p, hp, hevent, -⟩ := made.exists_part hevent
    refine ih p hp ?_ event hevent
    rw [Node.at?, hnode]
    exact Node.getElem?_of_mem_positions (made.woven.placed p hp)
  induction h with
  | underway traces woven ih => exact among hnode ⟨traces, woven⟩ ih
  | closing traces woven done closes ih =>
      intro event hevent
      rcases List.mem_append.mp hevent with hevent | hevent
      · exact among hnode ⟨traces, woven⟩ ih event hevent
      · rw [closes.site_eq hevent, hnode]
        rfl

/-- Below any place of a tree, the log of the tree is a log of the node there. If the tree has its answer
then the node has one, or it is left out, or it is the name of a feature. -/
theorem Trace.at (h : Trace [] tree log v?) (hnode : tree.at? site = some node) :
    ∃ u?, Trace site node (log.filter (Event.isUnder site)) u? ∧
      (v?.isSome → u?.isSome ∨ Log.Skipped tree log site ∨ node.identifier?.isSome) := by
  induction site generalizing node with
  | nil =>
      obtain rfl : tree = node := Option.some.inj hnode
      have hall : log.filter (Event.isUnder []) = log :=
        List.filter_eq_self.mpr fun event _ => decide_eq_true (List.nil_suffix)
      exact ⟨v?, hall.symm ▸ h, .inl⟩
  | cons i site ih =>
      obtain ⟨parent, hparent, hchild⟩ := Option.bind_eq_some_iff.mp hnode
      obtain ⟨u?, above, habove⟩ := ih hparent
      obtain ⟨t?, below, hbelow⟩ := above.child hchild
      have hfilter : (log.filter (Event.isUnder site)).filter (Event.isUnder (i :: site)) =
          log.filter (Event.isUnder (i :: site)) := by
        rw [List.filter_filter]
        refine List.filter_congr fun event _ => ?_
        rw [Bool.and_eq_left_iff_imp]
        exact fun hunder => decide_eq_true (suffix_of_cons_suffix (of_decide_eq_true hunder))
      refine ⟨t?, hfilter ▸ below, fun hsome => ?_⟩
      rcases habove hsome with hu | ⟨place, j, above, hsuffix, hplace, hskips⟩ | hname
      · rcases hbelow hu with ht | hskips | hname
        · exact .inl ht
        · refine .inr (.inl ⟨site, i, parent, List.suffix_refl _, hparent, hskips.mono fun j u hu => ?_⟩)
          exact (List.mem_filter.mp hu).1
        · exact .inr (.inr hname)
      · have hbelow : (j :: place) <:+ (i :: site) := hsuffix.trans (List.suffix_cons i site)
        exact .inr (.inl ⟨place, j, above, hbelow, hplace, hskips⟩)
      · cases parent <;> first | cases hchild | cases hname

/-- A log accounts for the calls of a tree. Only calls call features, each at most once and after its
arguments. If the evaluation succeeds, the calls that are left out are those that have not called, and
every other one has called once. Where children are evaluated one after the other, everything that is
called below one has answered before anything is called below the next. -/
structure Log.Accounts (tree : Node) (log : List Event) (succeeds : Prop) : Prop where
  onlyCalls : ∀ site, .invoked site ∈ log →
    ∃ w callee arguments, tree.at? site = some (.call w callee arguments)
  atMostOnce : ∀ site, invocations log site ≤ 1
  argumentsFirst : ArgumentsFirst tree log
  exact : succeeds → ∀ site w callee arguments, tree.at? site = some (.call w callee arguments) →
    (invocations log site = 0 ↔ Skipped tree log site) ∧
      (¬ Skipped tree log site → invocations log site = 1)
  separated : ∀ site node i j, tree.at? site = some node → node.Precedes i j →
    Separated log (i :: site) (j :: site)

/-- Nothing is called at a place that is left out. -/
theorem Trace.invocations_of_skipped (h : Trace [] tree log v?) (hskipped : Log.Skipped tree log site) :
    Log.invocations log site = 0 := by
  obtain ⟨place, i, node, hsuffix, hnode, hskips⟩ := hskipped
  obtain ⟨u?, above, -⟩ := h.at hnode
  have hnil := above.filter_eq_nil_of_skips (hskips.mono fun j v hv =>
    mem_filter_isUnder hv (List.suffix_cons j place))
  refine Log.invocations_eq_zero fun hmem => ?_
  have hbelow := mem_filter_isUnder (mem_filter_isUnder hmem (suffix_of_cons_suffix hsuffix)) hsuffix
  rw [hnil] at hbelow
  exact List.not_mem_nil hbelow

/-- The log of a tree accounts for its calls. -/
theorem Trace.accounts (h : Trace [] tree log v?) : Log.Accounts tree log v?.isSome where
  onlyCalls site hcall := by
    obtain ⟨node, hnode⟩ := Option.isSome_iff_exists.mp (h.isSome_at? rfl _ hcall)
    obtain ⟨u?, below, -⟩ := h.at hnode
    obtain ⟨w, callee, arguments, rfl⟩ :=
      below.exists_call (mem_filter_isUnder hcall (List.suffix_refl site))
    exact ⟨w, callee, arguments, hnode⟩
  atMostOnce site := by
    cases hnode : tree.at? site with
    | none =>
        rw [Log.invocations_eq_zero fun hcall => ?_]
        · exact Nat.zero_le 1
        · have hplace := h.isSome_at? rfl _ hcall
          rw [show Event.site (.invoked site) = site from rfl, hnode] at hplace
          cases hplace
    | some node =>
        obtain ⟨u?, below, -⟩ := h.at hnode
        rw [← Log.invocations_filter]
        exact below.invocations_eq.1
  argumentsFirst site w callee arguments hnode before after hlog i hi := by
    obtain ⟨u?, below, -⟩ := h.at hnode
    rw [hlog, filter_isUnder_split (List.suffix_refl site)] at below
    obtain ⟨v, hv⟩ := below.argumentsFirst rfl hi
    exact ⟨v, (List.mem_filter.mp hv).1⟩
  exact hsome site w callee arguments hnode := by
    have hone (hskipped : ¬ Log.Skipped tree log site) : Log.invocations log site = 1 := by
      obtain ⟨u?, below, hu⟩ := h.at hnode
      rcases hu hsome with hu | hskipped' | hname
      · rw [← Log.invocations_filter]
        exact below.invocations_eq.2 hu w callee arguments rfl
      · exact absurd hskipped' hskipped
      · cases hname
    refine ⟨⟨fun hzero => ?_, h.invocations_of_skipped⟩, hone⟩
    by_contra hskipped
    rw [hone hskipped] at hzero
    cases hzero
  separated site node i j hnode hprecedes := by
    obtain ⟨u?, below, -⟩ := h.at hnode
    intro before after later hlog hsecond place hfirst hcall
    have hsplit : log.filter (Event.isUnder site) = before.filter (Event.isUnder site) ++
        .invoked later :: after.filter (Event.isUnder site) := by
      rw [hlog]
      exact filter_isUnder_split (suffix_of_cons_suffix hsecond)
    obtain ⟨hbefore, v, hv⟩ := below.separated hprecedes _ _ later hsplit hsecond place hfirst
      (mem_filter_isUnder hcall (suffix_of_cons_suffix hfirst))
    exact ⟨(List.mem_filter.mp hbefore).1, v, (List.mem_filter.mp hv).1⟩

end Tree

/-- Every evaluation accounts for its calls: of any tree, in any scope and any world, with any features,
however often these suspend, and however parts are evaluated side by side, as long as what is written down
makes no difference there. -/
theorem Evaluator.exists_log_accounts {ω : Type} (e : Evaluator ω)
    {watching : Combinators (ω × List Event) RuleError Value} (watches : watching.Watches e.combinators)
    (scope : Scope) (tree : Node) (w : ω) :
    ∃ log, (e.observed watching scope [] tree).run (w, []) =
        (((e.valueOf scope tree).run w).1, ((e.valueOf scope tree).run w).2, log) ∧
      Log.Accounts tree log ((e.valueOf scope tree).run w).1.isOk := by
  have hwatches := watches_observed watches scope [] tree
  obtain ⟨log, hrun, htrace⟩ := (e.writes_observed watching scope [] tree).run_of_watches hwatches w []
  refine ⟨log, hrun, ?_⟩
  have haccounts := htrace.accounts
  cases hresult : ((e.valueOf scope tree).run w).1 with
  | ok v => rwa [hresult] at haccounts
  | error err => rwa [hresult] at haccounts

namespace Sample

/-- A conditional between three calls, one of them around a fourth, beside a fifth call. -/
def branchingLists : Node :=
  .array 0
    [.conditional 0 (callOf "list" []) (callOf "list" [callOf "list" []]) (callOf "list" []),
      callOf "list" [.ofValue (.string "b") false]]

/-- What is written down in rounds: the last call answers while the test of the conditional waits. -/
def branchingEvents : List Event :=
  [.invoked [0, 0], .answered [1, 1] (.string "b"), .invoked [1], .answered [1] (.array [.string "b"]),
    .answered [0, 0] (.array []), .invoked [1, 1, 0], .answered [1, 1, 0] (.array []), .invoked [1, 0],
    .answered [1, 0] (.array [.array []]), .answered [0] (.array [.array []]),
    .answered [] (.array [.array [.array []], .array [.string "b"]])]

/-- Four of the five calls are made, and the one in the branch that is not taken is left out. -/
theorem exists_log_accounts_branchingLists :
    ((pausingEvaluator (fun count => 3 - count) none).observed .rounds scope [] branchingLists).run
        (0, []) = (.ok (.array [.array [.array []], .array [.string "b"]]), 4, branchingEvents) ∧
      Log.Accounts branchingLists branchingEvents true := by
  have hrun : ((pausingEvaluator (fun count => 3 - count) none).observed .rounds scope []
      branchingLists).run (0, []) =
        (.ok (.array [.array [.array []], .array [.string "b"]]), 4, branchingEvents) := by
    rfl
  obtain ⟨log, hlog, accounts⟩ := Evaluator.exists_log_accounts
    (pausingEvaluator (fun count => 3 - count) none) Combinators.watches_rounds scope branchingLists 0
  cases hlog.symm.trans hrun
  exact ⟨hrun, accounts⟩

end Sample

end RuleLang
