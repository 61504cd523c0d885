import Mathlib.Data.List.Pairwise
import RuleLang.Proofs.Evaluation.Log

/-!
# What an evaluation writes down

The log of the evaluation of a node is made of the logs of the children that it evaluates, merged or one
after the other, and of its own events after all of them. This is said here node by node, for
evaluations that have come to an end and for those that have not.

* `Part`, `Woven`, `Done`: what the children contribute, how that makes up a log, and when no more is to
  come.
* `Trace`: the possible logs of the evaluation of a node at a place.
* `Work`: the possible logs of its children. `work_of_abreast` and `work_of_inTurn` find them for
  children side by side and one after the other.
-/

namespace RuleLang

open RuleLang.Computation

/-- What the evaluation of a child has contributed to the log of a node: its events, and its answer if
it has one. -/
structure Part where
  index : Nat
  node : Node
  events : List Event
  answer? : Option Value

namespace Part

/-- The child, with its position. -/
def position (p : Part) : Node × Nat := (p.node, p.index)

/-- A child is among the parts and has answered. -/
def Answered (parts : List Part) (i : Nat) (v : Value) : Prop :=
  ∃ p ∈ parts, p.index = i ∧ p.answer? = some v

end Part

/-- The logs of children make up a log: no child contributes twice and none that is left out. Children
that are evaluated one after the other have contributed one after the other, each after the answers of
those before it. -/
structure Woven (node : Node) (parts : List Part) (es : List Event) : Prop where
  placed : ∀ p ∈ parts, p.position ∈ node.positions
  distinct : (parts.map Part.index).Nodup
  merged : Interleaves (parts.map Part.events) es
  sequenced : node.isSequential → es = (parts.map Part.events).flatten ∧
    parts.Pairwise fun p q => p.answer?.isSome ∧ node.Precedes p.index q.index
  unskipped : ∀ p ∈ parts, ¬ node.Skips (Part.Answered parts) p.index

/-- All children have answered that are not left out. -/
structure Done (node : Node) (parts : List Part) : Prop where
  answered : ∀ p ∈ parts, p.answer?.isSome
  covered : ∀ x ∈ node.positions,
    (∃ p ∈ parts, p.position = x) ∨ node.Skips (Part.Answered parts) x.2

/-- What a node writes itself once its children are done. A call calls its feature before it answers. -/
inductive Closes (site : Site) : Node → List Event → Option Value → Prop
  | plain {node : Node} {v : Value} (noCall : ∀ w callee arguments, node ≠ .call w callee arguments) :
      Closes site node [.answered site v] (some v)
  | invoked {w u : Weight} {name : String} {arguments : List Node} :
      Closes site (.call w (.identifier u name) arguments) [.invoked site] none
  | returned {w u : Weight} {name : String} {arguments : List Node} {v : Value} :
      Closes site (.call w (.identifier u name) arguments) [.invoked site, .answered site v] (some v)

/-- What the evaluation of a node at a place may have written, with its answer if it has one. -/
inductive Trace : Site → Node → List Event → Option Value → Prop
  | underway {site : Site} {node : Node} {parts : List Part} {es : List Event}
      (traces : ∀ p ∈ parts, Trace (p.index :: site) p.node p.events p.answer?)
      (woven : Woven node parts es) : Trace site node es none
  | closing {site : Site} {node : Node} {parts : List Part} {es tail : List Event} {v? : Option Value}
      (traces : ∀ p ∈ parts, Trace (p.index :: site) p.node p.events p.answer?)
      (woven : Woven node parts es) (done : Done node parts) (closes : Closes site node tail v?) :
      Trace site node (es ++ tail) v?

/-- A log of the children of a node, with the parts that it is made of. -/
structure Made (site : Site) (node : Node) (parts : List Part) (es : List Event) : Prop where
  traces : ∀ p ∈ parts, Trace (p.index :: site) p.node p.events p.answer?
  woven : Woven node parts es

/-- The log of the children of a node, which are done once there is an answer. -/
def Work {α : Type} (site : Site) (node : Node) : Logs Event α :=
  fun es a? => ∃ parts, Made site node parts es ∧ (a?.isSome → Done node parts)

variable {site : Site} {node : Node} {es : List Event} {α : Type}

/-- As long as no child has contributed there is no log. -/
theorem made_nil (site : Site) (node : Node) : Made site node [] [] where
  traces := by simp
  woven := ⟨by simp, .nil, .nil, fun _ => ⟨rfl, .nil⟩, by simp⟩

/-- A node that has not been evaluated has written nothing. -/
theorem Trace.idle (site : Site) (node : Node) : Trace site node [] none :=
  .underway (made_nil site node).traces (made_nil site node).woven

namespace Work

/-- Of the answer it counts only whether there is one. -/
theorem of_isSome {β : Type} {a? : Option α} {b? : Option β} (h : Work site node es a?)
    (hsome : b?.isSome → a?.isSome) : Work site node es b? := by
  obtain ⟨parts, made, done⟩ := h
  exact ⟨parts, made, fun hb => done (hsome hb)⟩

/-- A node without children has no work. -/
theorem nil (childless : node.positions = []) (a? : Option α) : Work site node [] a? := by
  refine ⟨[], made_nil site node, fun _ => ⟨by simp, ?_⟩⟩
  simp [childless]

/-- What a node has done so far is a trace of it without an answer. -/
theorem underway {a? : Option α} (h : Work site node es a?) : Trace site node es none := by
  obtain ⟨parts, made, -⟩ := h
  exact .underway made.traces made.woven

/-- The work of a node with what closes it is a trace of the node. -/
theorem closing {a : α} {tail : List Event} {v? : Option Value} (h : Work site node es (some a))
    (closes : Closes site node tail v?) : Trace site node (es ++ tail) v? := by
  obtain ⟨parts, made, done⟩ := h
  exact .closing made.traces made.woven (done rfl) closes

end Work

/-! ### Children side by side -/

/-- The possible logs of a child. -/
def childTrace (site : Site) (x : Node × Nat) : Logs Event Value :=
  Trace (x.2 :: site) x.1

/-- What children side by side may have written are the logs of parts, merged. -/
theorem exists_parts_of_abreast {children : List (Node × Nat)} {answers : List (Option Value)}
    (h : Abreast (children.map (childTrace site)) es answers) :
    ∃ parts : List Part, parts.map Part.position = children ∧ parts.map Part.answer? = answers ∧
      (∀ p ∈ parts, Trace (p.index :: site) p.node p.events p.answer?) ∧
      Interleaves (parts.map Part.events) es := by
  induction children generalizing es answers with
  | nil =>
      cases h
      exact ⟨[], rfl, rfl, by simp, .nil⟩
  | cons x children ih =>
      rw [List.map_cons] at h
      cases h with
      | @cons _ _ xs ys _ a? answers first rest merge =>
          obtain ⟨parts, rfl, rfl, traces, merged⟩ := ih rest
          refine ⟨⟨x.2, x.1, xs, a?⟩ :: parts, rfl, rfl, ?_, .cons merge merged⟩
          exact List.forall_mem_cons.mpr ⟨first, traces⟩

section SideBySide

variable {parts : List Part}

/-- Where no order is asked for, the parts of all children only have to be merged. -/
theorem woven_of_positions (parallel : node.isSequential = false)
    (positions : parts.map Part.position = node.positions)
    (merged : Interleaves (parts.map Part.events) es) : Woven node parts es where
  placed p hp := by
    rw [← positions]
    exact List.mem_map_of_mem hp
  distinct := by
    have hnodup := node.nodup_positions
    rwa [← positions, List.map_map] at hnodup
  merged := merged
  sequenced := by simp [parallel]
  unskipped p _ skips := by
    cases node <;> first | exact skips | cases parallel

/-- A node of which every part has answered is done. -/
theorem done_of_positions (positions : parts.map Part.position = node.positions)
    (answered : ∀ p ∈ parts, p.answer?.isSome) : Done node parts where
  answered := answered
  covered x hx := by
    left
    rw [← positions] at hx
    exact List.mem_map.mp hx

end SideBySide

/-- All answers are there when the list of all answers is. -/
theorem isSome_of_mapM {answers : List (Option Value)} (h : (answers.mapM id).isSome)
    {a? : Option Value} (ha : a? ∈ answers) : a?.isSome := by
  by_contra hnone
  rw [Option.not_isSome_iff_eq_none] at hnone
  subst hnone
  rw [mapM_eq_none_of_mem ha] at h
  exact absurd h Bool.false_ne_true

/-- Children side by side do the work of a node that evaluates them so. -/
theorem work_of_abreast {answers : List (Option Value)} (parallel : node.isSequential = false)
    (h : Abreast (node.positions.map (childTrace site)) es answers) :
    Work site node es (answers.mapM id) := by
  obtain ⟨parts, positions, rfl, traces, merged⟩ := exists_parts_of_abreast h
  refine ⟨parts, ⟨traces, woven_of_positions parallel positions merged⟩, fun hsome => ?_⟩
  apply done_of_positions positions
  intro p hp
  exact isSome_of_mapM hsome (List.mem_map_of_mem hp)

/-- A single child does the work of a node. -/
theorem work_of_child {child : Node} {v? : Option Value} (parallel : node.isSequential = false)
    (single : node.positions = [(child, 0)]) (h : Trace (0 :: site) child es v?) :
    Work site node es v? := by
  have habreast : Abreast (node.positions.map (childTrace site)) es [v?] := by
    rw [single]
    exact .cons h .nil (.nil_right es)
  exact (work_of_abreast parallel habreast).of_isSome (by cases v? <;> simp)

/-! ### Children one after another -/

/-- What children one after another may have written are the logs of parts, one after another. The
answers of all but the last part let the next one go on, and no child is missing at the end unless
an answer stopped them. -/
theorem exists_parts_of_inTurn {stops : Value → Bool} {children : List (Node × Nat)} {last : Value}
    {v? : Option Value} (h : InTurn stops (children.map (childTrace site)) last es v?) :
    ∃ (parts : List Part) (rest : List (Node × Nat)), children = parts.map Part.position ++ rest ∧
      (∀ p ∈ parts, Trace (p.index :: site) p.node p.events p.answer?) ∧
      es = (parts.map Part.events).flatten ∧
      (parts.Pairwise fun p _ => ∃ v, p.answer? = some v ∧ ¬ stops v) ∧
      (v?.isSome → (∀ p ∈ parts, p.answer?.isSome) ∧
        (rest ≠ [] → ∃ p ∈ parts, ∃ v, p.answer? = some v ∧ stops v)) := by
  induction children generalizing last es v? with
  | nil =>
      cases h
      exact ⟨[], [], rfl, by simp, rfl, .nil, by simp⟩
  | cons x children ih =>
      rw [List.map_cons] at h
      cases h with
      | underway first =>
          exact ⟨[⟨x.2, x.1, es, none⟩], children, rfl,
            List.forall_mem_singleton.mpr first, by simp, by simp, by simp⟩
      | @stop _ _ _ v _ first stopped =>
          refine ⟨[⟨x.2, x.1, es, some v⟩], children, rfl,
            List.forall_mem_singleton.mpr first, by simp, by simp, ?_⟩
          exact fun _ => ⟨by simp, fun _ => ⟨_, List.mem_singleton_self _, v, rfl, stopped⟩⟩
      | @step _ _ _ v es es' _ first goes rest =>
          obtain ⟨parts, left, rfl, traces, rfl, pairs, ended⟩ := ih rest
          refine ⟨⟨x.2, x.1, es, some v⟩ :: parts, left, rfl, ?_, by simp, ?_, fun hsome => ?_⟩
          · exact List.forall_mem_cons.mpr ⟨first, traces⟩
          · exact .cons (fun _ _ => ⟨v, rfl, goes⟩) pairs
          · obtain ⟨answered, stopped⟩ := ended hsome
            refine ⟨List.forall_mem_cons.mpr ⟨rfl, answered⟩, fun hleft => ?_⟩
            obtain ⟨p, hp, hstop⟩ := stopped hleft
            exact ⟨p, List.mem_cons_of_mem _ hp, hstop⟩

/-- Of two members of an ordered list one comes before the other. -/
theorem rel_or_rel_of_pairwise {R : α → α → Prop} {l : List α} (h : l.Pairwise R) {a b : α}
    (ha : a ∈ l) (hb : b ∈ l) (hne : a ≠ b) : R a b ∨ R b a := by
  have symm : Std.Symm fun a b => R a b ∨ R b a := ⟨fun _ _ => Or.symm⟩
  have either : l.Pairwise fun a b => R a b ∨ R b a := h.imp Or.inl
  exact either.forall ha hb hne

/-- The children that a node leaves out are those after one whose answer stops it. -/
def Node.IsStoppedBy (node : Node) (stops : Value → Bool) : Prop :=
  ∀ answers i, node.Skips answers i ↔ ∃ j v, node.Precedes j i ∧ answers j v ∧ stops v

section OneAfterAnother

variable {stops : Value → Bool} {parts : List Part} {rest : List (Node × Nat)}

/-- The events of parts that take turns, one after another, are woven as the node asks. -/
theorem woven_of_inTurn (stopped : node.IsStoppedBy stops)
    (perm : (parts.map Part.position ++ rest).Perm node.positions)
    (sorted : parts.Pairwise fun p q => node.Precedes p.index q.index)
    (goes : parts.Pairwise fun p _ => ∃ v, p.answer? = some v ∧ ¬ stops v) :
    Woven node parts (parts.map Part.events).flatten where
  placed p hp := perm.subset (List.mem_append_left rest (List.mem_map_of_mem hp))
  distinct := by
    have hnodup := (perm.map Prod.snd).nodup_iff.mpr node.nodup_positions
    rw [List.map_append, List.map_map] at hnodup
    exact (List.nodup_append.mp hnodup).1
  merged := .flatten _
  sequenced _ := by
    refine ⟨rfl, (goes.and sorted).imp ?_⟩
    rintro p q ⟨⟨v, hv, -⟩, hprecedes⟩
    exact ⟨Option.isSome_of_eq_some hv, hprecedes⟩
  unskipped p hp hskips := by
    -- A child that stops the others is the last part, so none comes after it.
    obtain ⟨j, v, hprecedes, ⟨q, hq, rfl, hv⟩, hstops⟩ := (stopped _ _).mp hskips
    have hne : q ≠ p := by
      rintro rfl
      exact hprecedes.asymm hprecedes
    rcases rel_or_rel_of_pairwise (goes.and sorted) hq hp hne with ⟨⟨u, hu, hgoes⟩, -⟩ | ⟨-, hafter⟩
    · obtain rfl : v = u := Option.some.inj (hv.symm.trans hu)
      exact hgoes hstops
    · exact hprecedes.asymm hafter

/-- A node whose parts take turns is done when the last one has answered or one has ended the others. -/
theorem done_of_inTurn (stopped : node.IsStoppedBy stops)
    (perm : (parts.map Part.position ++ rest).Perm node.positions)
    (apart : ∀ p ∈ parts, ∀ x ∈ rest, node.Precedes p.index x.2)
    (answered : ∀ p ∈ parts, p.answer?.isSome)
    (ended : rest ≠ [] → ∃ p ∈ parts, ∃ v, p.answer? = some v ∧ stops v) : Done node parts where
  answered := answered
  covered x hx := by
    rcases List.mem_append.mp (perm.mem_iff.mpr hx) with hx | hx
    · left
      exact List.mem_map.mp hx
    · right
      obtain ⟨p, hp, v, hv, hstops⟩ := ended (List.ne_nil_of_mem hx)
      exact (stopped _ _).mpr ⟨p.index, v, apart p hp x hx, ⟨p, hp, rfl, hv⟩, hstops⟩

end OneAfterAnother

/-- Children one after another do the work of a node that evaluates them in that order, up to an answer
that lets it leave out the others. -/
theorem work_of_inTurn {stops : Value → Bool} {order : List (Node × Nat)} {last : Value}
    {v? : Option Value} (perm : order.Perm node.positions)
    (sorted : order.Pairwise fun x y => node.Precedes x.2 y.2) (stopped : node.IsStoppedBy stops)
    (h : InTurn stops (order.map (childTrace site)) last es v?) : Work site node es v? := by
  obtain ⟨parts, rest, rfl, traces, rfl, goes, ended⟩ := exists_parts_of_inTurn h
  rw [List.pairwise_append, List.pairwise_map] at sorted
  obtain ⟨before, -, apart⟩ := sorted
  refine ⟨parts, ⟨traces, woven_of_inTurn stopped perm before goes⟩, fun hsome => ?_⟩
  obtain ⟨answered, hstop⟩ := ended hsome
  apply done_of_inTurn stopped perm _ answered hstop
  intro p hp x hx
  exact apart _ (List.mem_map_of_mem hp) x hx

/-! ### The branches of a conditional -/

section Conditional

variable {w : Weight} {test consequent alternate branch : Node}

/-- A test that is under way is the work of a conditional so far. -/
theorem work_of_test (h : Trace (0 :: site) test es none) :
    Work (α := Value) site (.conditional w test consequent alternate) es none := by
  refine ⟨[⟨0, test, es, none⟩], ⟨List.forall_mem_singleton.mpr h, ?_⟩, by simp⟩
  constructor
  · simp [Part.position, Node.positions, Node.children]
  · simp
  · exact .cons (.nil_right es) .nil
  · simp
  · simp [Node.Skips]

/-- The test of a conditional and the branch that it selects do the work of the conditional. -/
theorem work_of_branch {i : Nat} {v : Value} {es' : List Event} {v? : Option Value}
    (hbranch : branch = consequent ∧ i = 1 ∧ v.isTruthy ∨ branch = alternate ∧ i = 2 ∧ ¬ v.isTruthy)
    (htest : Trace (0 :: site) test es (some v)) (h : Trace (i :: site) branch es' v?) :
    Work site (.conditional w test consequent alternate) (es ++ es') v? := by
  refine ⟨[⟨0, test, es, some v⟩, ⟨i, branch, es', v?⟩], ⟨?_, ?_⟩, fun hsome => ?_⟩
  · simp [htest, h]
  · constructor
    · rcases hbranch with ⟨rfl, rfl, -⟩ | ⟨rfl, rfl, -⟩ <;>
        simp [Part.position, Node.positions, Node.children]
    · rcases hbranch with ⟨-, rfl, -⟩ | ⟨-, rfl, -⟩ <;> simp
    · exact .cons (.append es es') (.cons (.nil_right es') .nil)
    · rcases hbranch with ⟨-, rfl, -⟩ | ⟨-, rfl, -⟩ <;> simp [Node.Precedes]
    · rcases hbranch with ⟨-, rfl, hv⟩ | ⟨-, rfl, hv⟩ <;> simp [Node.Skips, Part.Answered, hv]
  · constructor
    · simp [hsome]
    · rcases hbranch with ⟨rfl, rfl, hv⟩ | ⟨rfl, rfl, hv⟩ <;>
        simp [Part.position, Node.positions, Node.children, Node.Skips, Part.Answered, hv]

end Conditional

end RuleLang
