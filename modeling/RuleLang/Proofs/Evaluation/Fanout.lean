import RuleLang.Proofs.Evaluation.Observed
import RuleLang.Proofs.Evaluation.Progress
import RuleLang.Proofs.Evaluation.Projection
import RuleLang.Proofs.Evaluation.Schedule
import RuleLang.Proofs.Evaluation.Turns

/-!
# How many members of a list are under way

An evaluator with a limit keeps to it for every list of a tree at every moment, however the lists are
nested and whatever member suspends when. The marks of one list come from the members of that list only,
so the bound is proved for one place at a time, by induction on the tree around it.

* `Within`: logs that are paced for a list, and say nothing of it where they do not concern it.
* `Evaluator.KeepsPace`: the evaluation of a node is paced for a list.
* `Evaluator.watches_monitored`: the evaluation of a node with its marks is its evaluation.
* `Evaluator.exists_log_paced`: every evaluation keeps to the limit.
-/

namespace RuleLang

open RuleLang.Computation

variable {ω ι α : Type} {limit : Nat} {list : Site}

/-- A log is paced for a list, and says nothing of it unless it concerns the list. -/
structure Within (limit : Nat) (list : Site) (concerned : Prop) (log : List Mark) : Prop where
  paced : Paced limit list log
  silent : ¬ concerned → Silent list log

namespace Within

variable {p q : Prop} {xs ys zs : List Mark}

/-- The empty log keeps to every limit. -/
theorem nil : Within limit list p [] :=
  ⟨paced_nil, fun _ => List.forall_mem_nil _⟩

/-- A log that may concern a list less still says nothing of it. -/
theorem mono (h : Within limit list p xs) (himp : p → q) : Within limit list q xs :=
  ⟨h.paced, fun hq => h.silent fun hp => hq (himp hp)⟩

/-- Of two logs that are merged only one may concern the list. -/
theorem shuffle (hxs : Within limit list p xs) (hys : Within limit list q ys) (apart : ¬ (p ∧ q))
    (merge : Shuffle xs ys zs) : Within limit list (p ∨ q) zs where
  paced := by
    by_cases hp : p
    · exact hxs.paced.shuffle (hys.silent fun hq => apart ⟨hp, hq⟩) merge
    · exact hys.paced.shuffle (hxs.silent hp) merge.symm
  silent hneither mark hmark := by
    rcases merge.mem_iff.mp hmark with hmark | hmark
    · exact hxs.silent (fun hp => hneither (.inl hp)) mark hmark
    · exact hys.silent (fun hq => hneither (.inr hq)) mark hmark

/-- Marks of other lists may be added anywhere. -/
theorem add (hxs : Within limit list p xs) (silent : Silent list ys) (merge : Shuffle xs ys zs) :
    Within limit list p zs := by
  have hys : Within limit list False ys := ⟨silent.paced, fun _ => silent⟩
  exact (hxs.shuffle hys (fun h => h.2) merge).mono fun h => h.resolve_right id

/-- What two different children write is paced, as only one of them concerns the list. -/
theorem children {i j : Nat} {site : Site} (hxs : Within limit list ((i :: site) <:+ list) xs)
    (hys : Within limit list ((j :: site) <:+ list) ys) (hne : i ≠ j) (merge : Shuffle xs ys zs) :
    Within limit list (site <:+ list) zs := by
  have apart : ¬ ((i :: site) <:+ list ∧ (j :: site) <:+ list) := fun h =>
    hne (eq_of_cons_suffix h.1 h.2)
  exact (hxs.shuffle hys apart merge).mono fun h => h.elim suffix_of_cons_suffix suffix_of_cons_suffix

end Within

/-! ### Several logs -/

section Several

variable {p : ι → Prop} {items : List ι} {es : List Mark}

/-- What computations may write that concern a list under different conditions. -/
abbrev withinLogs (limit : Nat) (list : Site) (p : ι → Prop) (x : ι) : Logs Mark α :=
  fun es _ => Within limit list (p x) es

/-- Of several logs that are merged only one may concern the list. -/
theorem Within.cons {x : ι} {xs ys zs : List Mark} (first : Within limit list (p x) xs)
    (rest : Within limit list (∃ y ∈ items, p y) ys) (apart : ∀ y ∈ items, ¬ (p x ∧ p y))
    (merge : Shuffle xs ys zs) : Within limit list (∃ y ∈ x :: items, p y) zs := by
  have hapart : ¬ (p x ∧ ∃ y ∈ items, p y) := by
    rintro ⟨hx, y, hmem, hy⟩
    exact apart y hmem ⟨hx, hy⟩
  exact (first.shuffle rest hapart merge).mono (List.exists_mem_cons_iff p x items).mpr

/-- What computations side by side write is paced, as only one of them concerns the list. -/
theorem Within.of_abreast {answers : List (Option α)}
    (h : Abreast (items.map (withinLogs limit list p)) es answers)
    (apart : items.Pairwise fun x y => ¬ (p x ∧ p y)) : Within limit list (∃ x ∈ items, p x) es := by
  induction items generalizing es answers with
  | nil =>
      cases h
      exact .nil
  | cons x items ih =>
      rw [List.map_cons] at h
      rw [List.pairwise_cons] at apart
      cases h with
      | cons first rest merge => exact first.cons (ih rest apart.2) apart.1 merge

/-- What computations one after another write is paced, as only one of them concerns the list. -/
theorem Within.of_inTurn {stops : α → Bool} {last : α} {a? : Option α}
    (h : InTurn stops (items.map (withinLogs limit list p)) last es a?)
    (apart : items.Pairwise fun x y => ¬ (p x ∧ p y)) : Within limit list (∃ x ∈ items, p x) es := by
  induction items generalizing es last a? with
  | nil =>
      cases h
      exact .nil
  | cons x items ih =>
      rw [List.map_cons] at h
      rw [List.pairwise_cons] at apart
      have head : p x → ∃ y ∈ x :: items, p y := fun hx => ⟨x, List.mem_cons_self, hx⟩
      cases h with
      | underway first => exact first.mono head
      | stop first stopped => exact first.mono head
      | step first goes rest => exact first.cons (ih rest apart.2) apart.1 (.append _ _)

end Several

/-! ### Trees -/

namespace Evaluator

variable {e : Evaluator ω} {watching : Combinators (ω × List Mark) RuleError Value} {scope : Scope}

/-- At every place, the evaluation of a node is paced for a list, and concerns the list only where it
stands at the node or below it. -/
def KeepsPace (e : Evaluator ω) (watching : Combinators (ω × List Mark) RuleError Value) (scope : Scope)
    (limit : Nat) (list : Site) (node : Node) : Prop :=
  ∀ site, Writes (fun es _ => Within limit list (site <:+ list) es)
    (e.monitored watching scope site node)

-- The equations of both evaluations are derived once, ahead of the lemmas that rewrite with them.
attribute [local simp] monitored valueOf

/-- A list stands below one child only. -/
theorem apart_of_nodup {children : List (Node × Nat)} (distinct : (children.map Prod.snd).Nodup)
    (site list : Site) :
    children.Pairwise fun x y => ¬ ((x.2 :: site) <:+ list ∧ (y.2 :: site) <:+ list) := by
  have different := List.pairwise_map.mp distinct
  exact different.imp fun hne hboth => hne (eq_of_cons_suffix hboth.1 hboth.2)

/-- What stands below a child stands below the node. -/
theorem suffix_of_exists {children : List (Node × Nat)} {site : Site}
    (h : ∃ x ∈ children, (x.2 :: site) <:+ list) : site <:+ list := by
  obtain ⟨x, -, hx⟩ := h
  exact suffix_of_cons_suffix hx

/-- Children that keep pace, at their places. -/
theorem writes_monitored {nodes : List Node}
    (h : ∀ node ∈ nodes, e.KeepsPace watching scope limit list node) (site : Site) :
    ∀ x ∈ nodes.zipIdx, Writes (withinLogs limit list (fun x => (x.2 :: site) <:+ list) x)
      (e.monitored watching scope (x.2 :: site) x.1) :=
  fun x hx => h x.1 (List.fst_mem_of_mem_zipIdx hx) (x.2 :: site)

/-- Every member of a list is evaluated at its place between its two marks. -/
theorem withMarks_monitoredFrom (site : Site) (start : Nat) (nodes : List Node) :
    withMarks site (e.monitoredFrom watching scope site start nodes) =
      (nodes.zipIdx start).zipIdx.map fun x =>
        .between (.started site x.2) (.finished site x.2)
          (e.monitored watching scope (x.1.2 :: site) x.1.1) := by
  rw [withMarks, monitoredFrom_eq_map, List.zipIdx_map, List.map_map]
  rfl

/-- The operands of a chain with their weights, at their places. -/
theorem zip_monitoredFrom (site : Site) (operands : List Node) :
    (operands.map Node.weight).zip (e.monitoredFrom watching scope site 0 operands) =
      operands.zipIdx.map fun x => (x.1.weight, e.monitored watching scope (x.2 :: site) x.1) := by
  rw [monitoredFrom_eq_map, map_eq_map_zipIdx Node.weight operands 0, List.zip_map']

section Members

variable {n : Nat} {nodes : List Node} {start : Nat} {site : Site}

/-- The members of the list itself write their own marks of it. -/
theorem writes_member {node : Node} (h : e.KeepsPace watching scope limit list node)
    (position i : Nat) :
    Writes (MemberLogs list i [])
      (.between (.started list i) (.finished list i)
        (e.monitored watching scope (position :: list) node)) := by
  apply (h (position :: list)).between
  · exact ⟨List.forall_mem_nil _, by simp⟩
  · intro es a? within
    have silent := within.silent fun hbelow => ne_of_cons_suffix hbelow rfl
    have inner : ∀ mark ∈ es, mark.list = list → mark.index = i := fun mark hmark hlist =>
      absurd hlist (silent mark hmark)
    refine ⟨⟨?_, by simp⟩, ?_, fun _ => by simp⟩
    · exact List.forall_mem_cons.mpr ⟨fun _ => rfl, inner⟩
    · rw [List.forall_mem_cons, List.forall_mem_append, List.forall_mem_singleton]
      exact ⟨fun _ => rfl, inner, fun _ => rfl⟩

/-- The members of another list write no marks of it that they would not write without their own. -/
theorem writes_otherMember {node : Node} (h : e.KeepsPace watching scope limit list node)
    (place : Site) (other : site ≠ list) (i : Nat) :
    Writes (fun es _ => Within limit list (place <:+ list) es)
      (.between (.started site i) (.finished site i) (e.monitored watching scope place node)) := by
  apply (h place).between
  · exact .nil
  · intro es a? within
    have first : Silent list [.started site i] := List.forall_mem_singleton.mpr other
    have both : Silent list [.started site i, .finished site i] := by
      simpa [Silent, Mark.list] using other
    exact ⟨within.add first (.right (.nil_right es)), within.add both (.right (.append es _))⟩

/-- The members of a list are held as many at a time as the configuration allows, and at least one. -/
theorem sideBySide_gatherMarked (limited : e.config.maxFanout = some n)
    (members : List (Computation (ω × List Mark) RuleError Value))
    (watching : Combinators (ω × List Mark) RuleError Value) (site : Site) :
    SideBySide (some (max n 1)) [] [] (withMarks site members)
      (e.gatherMarked watching site members) := by
  have hsideBySide := sideBySide_gather ⟨[], e.config, watching⟩ (withMarks site members)
  simp only [limited] at hsideBySide
  exact hsideBySide

/-- The members of a list keep pace where each of them does. -/
theorem writes_gatherMarked (limited : e.config.maxFanout = some n)
    (h : ∀ node ∈ nodes, e.KeepsPace watching scope (max n 1) list node) (site : Site) (start : Nat) :
    Writes (fun es _ => Within (max n 1) list (site <:+ list) es)
      (e.gatherMarked watching site (e.monitoredFrom watching scope site start nodes)) := by
  have hnode : ∀ x ∈ (nodes.zipIdx start).zipIdx, e.KeepsPace watching scope (max n 1) list x.1.1 :=
    fun x hx => h _ (List.fst_mem_of_mem_zipIdx (List.fst_mem_of_mem_zipIdx hx))
  have held := sideBySide_gatherMarked limited (e.monitoredFrom watching scope site start nodes)
    watching site
  rw [withMarks_monitoredFrom] at held
  by_cases hsite : site = list
  · subst hsite
    have members := held.writes_paced fun x hx => writes_member (hnode x hx) x.1.2 x.2
    exact members.mono fun es as? paced => ⟨paced, fun hnot => absurd (List.suffix_refl site) hnot⟩
  · have members := held.writes_jointly (forall₂_writes fun x hx =>
      writes_otherMember (hnode x hx) (x.1.2 :: site) hsite x.2)
    apply members.mono
    rintro es as? ⟨answers, habreast, -⟩
    have apart := apart_of_nodup (Node.nodup_zipIdx nodes start) site list
    rw [← List.zipIdx_map_fst 0 (nodes.zipIdx start), List.pairwise_map] at apart
    apply (Within.of_abreast habreast apart).mono
    rintro ⟨x, -, hx⟩
    exact suffix_of_cons_suffix hx

end Members

section Nodes

variable {w : Weight} {n : Nat}

/-- A literal starts no members. -/
theorem keepsPace_literal {value : Value} {verbatim : Bool} :
    e.KeepsPace watching scope limit list (.literal w value verbatim) := by
  intro site
  rw [monitored]
  exact .finished .nil

/-- A name starts no members. -/
theorem keepsPace_identifier {name : String} :
    e.KeepsPace watching scope limit list (.identifier w name) := by
  intro site
  rw [monitored]
  exact .quietly (fun _ => .nil) _

/-- An operator starts no members but those below its operand. -/
theorem KeepsPace.unary {op : UnaryOp} {operand : Node}
    (h : e.KeepsPace watching scope limit list operand) :
    e.KeepsPace watching scope limit list (.unary w op operand) := by
  intro site
  rw [monitored]
  exact (h (0 :: site)).map _ fun es a? within => within.mono suffix_of_cons_suffix

/-- A list below an operator lies below one of its two operands, so that the other starts no members of it.
-/
theorem KeepsPace.binary {op : BinaryOp} {left right : Node}
    (hleft : e.KeepsPace watching scope limit list left)
    (hright : e.KeepsPace watching scope limit list right) :
    e.KeepsPace watching scope limit list (.binary w op left right) := by
  intro site
  rw [monitored]
  apply (watching.writes_both (hleft (0 :: site)) (hright (1 :: site))).map
  rintro es answers? ⟨answers, habreast, -⟩
  cases habreast with
  | cons first rest merge =>
      cases rest with
      | cons second rest mergeNil =>
          cases rest
          rw [mergeNil.eq_of_nil_right] at merge
          exact first.children second Nat.zero_ne_one merge

/-- A list below a chain lies below one of its operands. -/
theorem KeepsPace.logical {op : LogicalOp} {operands : List Node}
    (h : ∀ node ∈ operands, e.KeepsPace watching scope limit list node) :
    e.KeepsPace watching scope limit list (.logical w op operands) := by
  intro site
  rw [monitored, zip_monitoredFrom]
  by_cases hne : operands = []
  · subst hne
    exact .finished .nil
  · have distinct : ((Node.byWeight operands).map Prod.snd).Nodup :=
      ((Node.byWeight_perm operands).map Prod.snd).nodup_iff.mpr (Node.nodup_zipIdx operands 0)
    apply (writes_chain op hne (writes_monitored h site)).mono
    intro es a? turns
    exact (Within.of_inTurn turns (apart_of_nodup distinct site list)).mono suffix_of_exists

/-- The elements of an array keep to the limit, and so do the lists below them. -/
theorem KeepsPace.array (limited : e.config.maxFanout = some n) {elements : List Node}
    (h : ∀ node ∈ elements, e.KeepsPace watching scope (max n 1) list node) :
    e.KeepsPace watching scope (max n 1) list (.array w elements) := by
  intro site
  rw [monitored]
  exact (writes_gatherMarked limited h site 0).map _ fun _ _ within => within

/-- A list below a conditional lies below its test or one of its branches. -/
theorem KeepsPace.conditional {test consequent alternate : Node}
    (htest : e.KeepsPace watching scope limit list test)
    (hconsequent : e.KeepsPace watching scope limit list consequent)
    (halternate : e.KeepsPace watching scope limit list alternate) :
    e.KeepsPace watching scope limit list (.conditional w test consequent alternate) := by
  intro site
  rw [monitored]
  apply (htest (0 :: site)).bind
  · exact fun es within => within.mono suffix_of_cons_suffix
  · intro es v within
    split
    · exact (hconsequent (1 :: site)).mono fun es' _ within' =>
        within.children within' Nat.zero_ne_one (.append es es')
    · exact (halternate (2 :: site)).mono fun es' _ within' =>
        within.children within' (by decide) (.append es es')

/-- A list below a sequence lies below one of its expressions. -/
theorem KeepsPace.sequence {expressions : List Node}
    (h : ∀ node ∈ expressions, e.KeepsPace watching scope limit list node) :
    e.KeepsPace watching scope limit list (.sequence w expressions) := by
  intro site
  rw [monitored, monitoredFrom_eq_map]
  apply (writes_inOrder (forall₂_writes (writes_monitored h site)) .undefined).mono
  intro es v? turns
  have apart := apart_of_nodup (Node.nodup_zipIdx expressions 0) site list
  exact (Within.of_inTurn turns apart).mono suffix_of_exists

/-- The arguments of a call keep to the limit, and so do the lists below them. -/
theorem KeepsPace.call (limited : e.config.maxFanout = some n) {callee : Node} {arguments : List Node}
    (h : ∀ node ∈ arguments, e.KeepsPace watching scope (max n 1) list node) :
    e.KeepsPace watching scope (max n 1) list (.call w callee arguments) := by
  intro site
  rw [monitored]
  cases e.callee? callee with
  | none => exact .finished .nil
  | some found =>
      apply (writes_gatherMarked limited h site 1).bind
      · exact fun es within => within
      · intro es values within
        apply Writes.quietly
        intro _
        rwa [List.append_nil]

/-- A member access starts no members but those below its object. -/
theorem KeepsPace.member {object : Node} {path : Path}
    (h : e.KeepsPace watching scope limit list object) :
    e.KeepsPace watching scope limit list (.member w object path) := by
  intro site
  rw [monitored]
  apply (h (0 :: site)).bind
  · exact fun es within => within.mono suffix_of_cons_suffix
  · intro es value within
    apply Writes.quietly
    intro _
    rw [List.append_nil]
    exact within.mono suffix_of_cons_suffix

end Nodes

/-- The evaluation of a node is paced for every list, however its parts are evaluated side by side. -/
theorem keepsPace {n : Nat} (limited : e.config.maxFanout = some n)
    (watching : Combinators (ω × List Mark) RuleError Value) (scope : Scope) (list : Site) (node : Node) :
    e.KeepsPace watching scope (max n 1) list node := by
  induction node with
  | literal w value verbatim => exact keepsPace_literal
  | identifier w name => exact keepsPace_identifier
  | unary w op operand ih => exact ih.unary
  | binary w op left right ihLeft ihRight => exact ihLeft.binary ihRight
  | logical w op operands ih => exact .logical ih
  | array w elements ih => exact .array limited ih
  | conditional w test consequent alternate ihTest ihConsequent ihAlternate =>
      exact ihTest.conditional ihConsequent ihAlternate
  | sequence w expressions ih => exact .sequence ih
  | call w callee arguments ihCallee ih => exact .call limited ih
  | member w object path ih => exact ih.member

/-- The members of a list, each between its marks, do what they do without them. -/
theorem watches_gatherMarked (watches : watching.Watches e.combinators) {nodes : List Node}
    (h : ∀ node ∈ nodes, ∀ site,
      Computation.Watches (e.monitored watching scope site node) (e.valueOf scope node))
    (site : Site) (start : Nat) :
    Computation.Watches (e.gatherMarked watching site (e.monitoredFrom watching scope site start nodes))
      (e.gather (e.valuesOf scope nodes)) := by
  have hvalues : e.valuesOf scope nodes =
      (nodes.zipIdx start).zipIdx.map fun x => e.valueOf scope x.1.1 := by
    rw [valuesOf_eq_map, map_eq_map_zipIdx (e.valueOf scope) nodes start,
      map_eq_map_zipIdx (fun x => e.valueOf scope x.1) (nodes.zipIdx start) 0]
  rw [gatherMarked, withMarks_monitoredFrom, hvalues]
  apply watches_gather rfl watches
  rw [List.forall₂_map_left_iff, List.forall₂_map_right_iff, List.forall₂_same]
  intro x hx
  have hnode := List.fst_mem_of_mem_zipIdx (List.fst_mem_of_mem_zipIdx hx)
  exact (h x.1.1 hnode (x.1.2 :: site)).between _ _

/-- The evaluation of a node with its marks is its evaluation, where parts with marks are evaluated side by
side as parts without them. -/
theorem watches_monitored (watches : watching.Watches e.combinators) (scope : Scope) (site : Site)
    (node : Node) :
    Computation.Watches (e.monitored watching scope site node) (e.valueOf scope node) := by
  induction node generalizing site with
  | literal w value verbatim =>
      rw [monitored, valueOf]
      exact .finished _
  | identifier w name =>
      rw [monitored, valueOf]
      exact .quietly _
  | unary w op operand ih =>
      rw [monitored, valueOf]
      exact (ih (0 :: site)).mapOutcome _
  | binary w op left right ihLeft ihRight =>
      rw [monitored, valueOf]
      exact (watches.both (ihLeft (0 :: site)) (ihRight (1 :: site))).mapOutcome _
  | logical w op operands ih =>
      rw [monitored, valueOf, zip_monitoredFrom, weighedValuesOf_eq_map,
        map_eq_map_zipIdx (fun n => (n.weight, e.valueOf scope n)) operands 0]
      exact watches_chain op fun x hx => ih x.1 (List.fst_mem_of_mem_zipIdx hx) (x.2 :: site)
  | array w elements ih =>
      rw [monitored, valueOf]
      exact (watches_gatherMarked watches ih site 0).mapOutcome _
  | conditional w test consequent alternate ihTest ihConsequent ihAlternate =>
      rw [monitored, valueOf]
      refine (ihTest (0 :: site)).bind fun v => ?_
      split
      · exact ihConsequent (1 :: site)
      · exact ihAlternate (2 :: site)
  | sequence w expressions ih =>
      rw [monitored, valueOf, monitoredFrom_eq_map, valuesOf_eq_map,
        map_eq_map_zipIdx (e.valueOf scope) expressions 0]
      apply watches_inOrder
      rw [List.forall₂_map_left_iff, List.forall₂_map_right_iff, List.forall₂_same]
      exact fun x hx => ih x.1 (List.fst_mem_of_mem_zipIdx hx) (x.2 :: site)
  | call w callee arguments ihCallee ih =>
      rw [monitored, valueOf]
      cases e.callee? callee with
      | none => exact .finished _
      | some found => exact (watches_gatherMarked watches ih site 1).bind fun vs => .quietly _
  | member w object path ih =>
      rw [monitored, valueOf]
      exact (ih (0 :: site)).bind fun v => .quietly _

/-- Every evaluation keeps to the limit, however parts are evaluated side by side, as long as the marks make
no difference there. What has been written so far tells at every moment which members of a list have
started and not finished: there are never more than the limit says, and never more than one if it says
less. Then each member has finished before the next one starts. -/
theorem exists_log_paced (e : Evaluator ω) {watching : Combinators (ω × List Mark) RuleError Value}
    (watches : watching.Watches e.combinators) {n : Nat} (limited : e.config.maxFanout = some n)
    (scope : Scope) (tree : Node) (w : ω) :
    ∃ log, (e.monitored watching scope [] tree).run (w, []) =
        (((e.valueOf scope tree).run w).1, ((e.valueOf scope tree).run w).2, log) ∧
      ∀ list moment, moment <+: log →
        (Mark.underWay list moment).card ≤ max n 1 ∧
        (n ≤ 1 → ∀ i, Mark.started list (i + 1) ∈ moment → Mark.finished list i ∈ moment) := by
  have paced (list : Site) := (keepsPace limited watching scope list tree []).run_of_watches
    (watches_monitored watches scope [] tree) w []
  obtain ⟨log, hrun, -⟩ := paced []
  refine ⟨log, hrun, fun list moment hmoment => ?_⟩
  obtain ⟨log', hrun', within⟩ := paced list
  cases hrun.symm.trans hrun'
  have spaced := within.paced moment hmoment
  refine ⟨spaced.card_underWay_le, fun hone i hstarted => ?_⟩
  exact spaced (i + 1) i hstarted (by omega)

end Evaluator

namespace Sample

/-- The marks of a list of two calls, with those of the arguments of each, one member at a time. -/
def nestedMarks : List Mark :=
  [.started [] 0, .started [0] 0, .finished [0] 0, .started [0] 1, .finished [0] 1, .finished [] 0,
    .started [] 1, .started [1] 0, .finished [1] 0, .finished [] 1]

/-- With a limit of zero the members of nested lists are under way one at a time, although they suspend. -/
theorem exists_log_paced_nestedLists :
    ((pausingEvaluator (fun count => 3 - count) (some 0)).monitored .rounds scope [] nestedLists).run
        (0, []) =
        (.ok (.array [.array [.string "a", .array []], .array [.string "b"]]), 3, nestedMarks) ∧
      ∀ list moment, moment <+: nestedMarks → (Mark.underWay list moment).card ≤ 1 ∧
        ∀ i, Mark.started list (i + 1) ∈ moment → Mark.finished list i ∈ moment := by
  have hrun : ((pausingEvaluator (fun count => 3 - count) (some 0)).monitored .rounds scope []
      nestedLists).run (0, []) =
        (.ok (.array [.array [.string "a", .array []], .array [.string "b"]]), 3, nestedMarks) := by
    rfl
  obtain ⟨log, hlog, paced⟩ := Evaluator.exists_log_paced
    (pausingEvaluator (fun count => 3 - count) (some 0)) Combinators.watches_rounds rfl scope
    nestedLists 0
  cases hlog.symm.trans hrun
  refine ⟨hrun, fun list moment hmoment => ?_⟩
  obtain ⟨card, inOrder⟩ := paced list moment hmoment
  exact ⟨card, inOrder (Nat.zero_le 1)⟩

/-- Two at a time: the second call starts and finishes while the first one waits for its last argument. -/
example :
    (((pausingEvaluator (fun count => 3 - count) (some 2)).monitored .rounds scope []
      nestedLists).run (0, [])).2.2 =
        [.started [] 0, .started [0] 0, .finished [0] 0, .started [0] 1, .started [] 1, .started [1] 0,
          .finished [1] 0, .finished [] 1, .finished [0] 1, .finished [] 0] := by
  rfl

end Sample

end RuleLang
