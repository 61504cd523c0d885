import Mathlib.Data.List.Basic
import RuleLang.Proofs.Evaluation.Trace

/-!
# The log below a place

What a log says of a place and of the places below it, taken by itself, is a log of the node there. So
what holds of the node of a tree and its own log holds of every node of the tree and the log of the tree.

* `Event.isUnder`: whether an event is about a place or one below it.
* `Made.filter_eq`: below a child, the log of a node is the share of that child.
* `Trace.child`, `Trace.filter_eq_nil_of_skips`: it is a log of the child, and empty where the child is
  left out.
-/

namespace RuleLang

/-- Whether an event is about a place or one below it. -/
def Event.isUnder (site : Site) (event : Event) : Bool :=
  decide (site <:+ event.site)

/-! ### Places -/

/-- A place is not below itself. -/
theorem ne_of_cons_suffix {i : Nat} {site place : Site} (h : (i :: site) <:+ place) : place ≠ site := by
  rintro rfl
  have hlength := h.length_le
  rw [List.length_cons] at hlength
  omega

/-- Below a place, a place is below one child only. -/
theorem eq_of_cons_suffix {i j : Nat} {site place : Site} (hi : (i :: site) <:+ place)
    (hj : (j :: site) <:+ place) : i = j := by
  have hsuffix := List.suffix_of_suffix_length_le hi hj (Nat.le_refl _)
  have heq := hsuffix.eq_of_length rfl
  exact (List.cons.inj heq).1

/-- What lies below a part lies below the node. -/
theorem suffix_of_cons_suffix {i : Nat} {site place : Site} (h : (i :: site) <:+ place) :
    site <:+ place :=
  (List.suffix_cons i site).trans h

/-- A child that is evaluated is the child at its position. -/
theorem Node.getElem?_of_mem_positions {node : Node} {x : Node × Nat} (h : x ∈ node.positions) :
    node.children[x.2]? = some x.1 := by
  cases node with
  | call w callee arguments =>
      obtain ⟨hle, hx⟩ := List.mem_zipIdx_iff_le_and_getElem?_sub.mp h
      obtain ⟨k, hk⟩ := Nat.exists_eq_add_of_le hle
      rw [hk, Nat.add_sub_cancel_left] at hx
      rw [hk, Nat.add_comm, children, List.getElem?_cons_succ, hx]
  | _ => exact List.mem_zipIdx_iff_getElem?.mp h

/-- A child is evaluated, or it is the callee of a call. -/
theorem Node.mem_positions_or {node child : Node} {i : Nat} (h : node.children[i]? = some child) :
    (child, i) ∈ node.positions ∨ ∃ w arguments, node = .call w child arguments ∧ i = 0 := by
  cases node with
  | call w callee arguments =>
      cases i with
      | zero =>
          obtain rfl : callee = child := by simpa [children] using h
          exact .inr ⟨w, arguments, rfl, rfl⟩
      | succ i =>
          refine .inl (List.mem_zipIdx_iff_le_and_getElem?_sub.mpr ⟨Nat.le_add_left 1 i, ?_⟩)
          simpa [children] using h
  | _ => exact .inl (List.mem_zipIdx_iff_getElem?.mpr h)

/-- What is left out on some answers is left out on more of them. -/
theorem Node.Skips.mono {node : Node} {A B : Nat → Value → Prop} {i : Nat} (h : node.Skips A i)
    (himp : ∀ j v, A j v → B j v) : node.Skips B i := by
  cases node with
  | conditional w test consequent alternate =>
      obtain ⟨v, hv, hbranch⟩ := h
      exact ⟨v, himp 0 v hv, hbranch⟩
  | logical w op operands =>
      obtain ⟨j, v, hprecedes, hv, hdecides⟩ := h
      exact ⟨j, v, hprecedes, himp j v hv, hdecides⟩
  | _ => exact h

/-! ### The events of a log -/

variable {site : Site} {node : Node} {es : List Event} {v? : Option Value} {event : Event}

/-- The part of a log below a place, split at an event below it. -/
theorem filter_isUnder_split {before after : List Event} (hunder : site <:+ event.site) :
    (before ++ event :: after).filter (Event.isUnder site) =
      before.filter (Event.isUnder site) ++ event :: after.filter (Event.isUnder site) := by
  have hevent : event.isUnder site := decide_eq_true hunder
  rw [List.filter_append, List.filter_cons_of_pos hevent]

/-- An event below a place is kept when the events there are sought. -/
theorem mem_filter_isUnder (hmem : event ∈ es) (hunder : site <:+ event.site) :
    event ∈ es.filter (Event.isUnder site) :=
  List.mem_filter.mpr ⟨hmem, decide_eq_true hunder⟩

/-- What a log has below a node was not written by the node itself. -/
theorem mem_of_mem_append_own {work tail : List Event} (hmem : event ∈ work ++ tail)
    (own : ∀ event ∈ tail, event.site = site) {i : Nat} (hunder : (i :: site) <:+ event.site) :
    event ∈ work := by
  rcases List.mem_append.mp hmem with hmem | hmem
  · exact hmem
  · exact absurd (own event hmem) (ne_of_cons_suffix hunder)

/-- What a node writes itself is not about places below it. -/
theorem filter_isUnder_own {tail : List Event} (own : ∀ event ∈ tail, event.site = site) (i : Nat) :
    tail.filter (Event.isUnder (i :: site)) = [] := by
  rw [List.filter_eq_nil_iff]
  intro event hevent hunder
  exact ne_of_cons_suffix (of_decide_eq_true hunder) (own event hevent)

/-- What a node writes itself is about its own place. -/
theorem Closes.site_eq {tail : List Event} (h : Closes site node tail v?)
    (hmem : event ∈ tail) : event.site = site := by
  cases h with
  | plain noCall | invoked =>
      rw [List.mem_singleton.mp hmem]
      rfl
  | returned =>
      rcases List.mem_pair.mp hmem with rfl | rfl <;> rfl

/-- Every event of an evaluation is about the place of the node or one below it. -/
theorem Trace.suffix (h : Trace site node es v?) : ∀ event ∈ es, site <:+ event.site := by
  have among {site : Site} {parts : List Part} {es : List Event} {node : Node}
      (ih : ∀ p ∈ parts, ∀ event ∈ p.events, (p.index :: site) <:+ event.site)
      (woven : Woven node parts es) : ∀ event ∈ es, site <:+ event.site := by
    intro event hevent
    obtain ⟨events, hevents, hevent⟩ := woven.merged.exists_mem hevent
    obtain ⟨p, hp, rfl⟩ := List.mem_map.mp hevents
    exact suffix_of_cons_suffix (ih p hp event hevent)
  induction h with
  | underway traces woven ih => exact among ih woven
  | closing traces woven done closes ih =>
      intro event hevent
      rcases List.mem_append.mp hevent with hevent | hevent
      · exact among ih woven event hevent
      · exact ⟨[], (closes.site_eq hevent).symm⟩

/-- A log is made of the logs of children and of what the node writes itself once these are done. -/
theorem Trace.exists_made (h : Trace site node es v?) :
    ∃ parts work tail, Made site node parts work ∧ es = work ++ tail ∧
      (∀ event ∈ tail, event.site = site) ∧
      (tail = [] ∧ v? = none ∨ Done node parts ∧ Closes site node tail v?) := by
  cases h with
  | @underway _ _ parts es traces woven =>
      exact ⟨parts, es, [], ⟨traces, woven⟩, (List.append_nil es).symm, by simp, .inl ⟨rfl, rfl⟩⟩
  | @closing _ _ parts work tail _ traces woven done closes =>
      exact ⟨parts, work, tail, ⟨traces, woven⟩, rfl, fun event hevent => closes.site_eq hevent,
        .inr ⟨done, closes⟩⟩

namespace Made

variable {parts : List Part}

/-- An event is the event of a part, about a place below the child. -/
theorem exists_part (h : Made site node parts es) (hevent : event ∈ es) :
    ∃ p ∈ parts, event ∈ p.events ∧ (p.index :: site) <:+ event.site := by
  obtain ⟨events, hevents, hevent⟩ := h.woven.merged.exists_mem hevent
  obtain ⟨p, hp, rfl⟩ := List.mem_map.mp hevents
  exact ⟨p, hp, hevent, (h.traces p hp).suffix event hevent⟩

/-- An event below a child is an event of its part. -/
theorem exists_part_of_suffix (h : Made site node parts es) (hevent : event ∈ es) {i : Nat}
    (hi : (i :: site) <:+ event.site) : ∃ p ∈ parts, p.index = i ∧ event ∈ p.events := by
  obtain ⟨p, hp, hmem, hsuffix⟩ := h.exists_part hevent
  exact ⟨p, hp, eq_of_cons_suffix hsuffix hi, hmem⟩

/-- The events of a part are events of the node. -/
theorem mem_of_part (h : Made site node parts es) {p : Part} (hp : p ∈ parts)
    (hevent : event ∈ p.events) : event ∈ es :=
  h.woven.merged.mem_of_mem (List.mem_map_of_mem hp) hevent

/-- What the parts of a node do happens below the node and not at it. -/
theorem site_ne (h : Made site node parts es) (hevent : event ∈ es) : event.site ≠ site := by
  obtain ⟨p, -, -, hsuffix⟩ := h.exists_part hevent
  exact ne_of_cons_suffix hsuffix

/-- The events below a child are those of its part. -/
theorem filter_eq (h : Made site node parts es) {p : Part} (hp : p ∈ parts) :
    es.filter (Event.isUnder (p.index :: site)) = p.events := by
  have distinct : parts.Nodup := .of_map _ h.woven.distinct
  rw [h.woven.merged.filter_eq distinct hp fun q hq hne => ?_]
  · rw [List.filter_eq_self]
    exact fun event hevent => decide_eq_true ((h.traces p hp).suffix event hevent)
  · rw [List.filter_eq_nil_iff]
    intro event hevent hunder
    have hindex := eq_of_cons_suffix ((h.traces q hq).suffix event hevent) (of_decide_eq_true hunder)
    exact hne (List.inj_on_of_nodup_map h.woven.distinct hq hp hindex)

/-- There are no events below a child that has no part. -/
theorem filter_eq_nil (h : Made site node parts es) {i : Nat} (hi : ∀ p ∈ parts, p.index ≠ i) :
    es.filter (Event.isUnder (i :: site)) = [] := by
  rw [List.filter_eq_nil_iff]
  intro event hevent hunder
  obtain ⟨p, hp, hindex, -⟩ := h.exists_part_of_suffix hevent (of_decide_eq_true hunder)
  exact hi p hp hindex

end Made

/-- The last event of an evaluation with an answer is the answer, and there is no other one. -/
theorem Trace.answered_iff (h : Trace site node es v?) {v : Value} :
    .answered site v ∈ es ↔ v? = some v := by
  obtain ⟨parts, work, tail, made, rfl, -, ⟨rfl, rfl⟩ | ⟨-, closes⟩⟩ := h.exists_made
  · simpa using fun hmem => made.site_ne hmem rfl
  · have hwork : .answered site v ∉ work := fun hmem => made.site_ne hmem rfl
    rw [List.mem_append, or_iff_right hwork]
    cases closes <;> simp [eq_comm]

/-- The answers that a log holds for the children are those of the parts. -/
theorem Made.answered_iff {parts : List Part} (h : Made site node parts es) {j : Nat} {v : Value} :
    .answered (j :: site) v ∈ es ↔ Part.Answered parts j v := by
  constructor
  · intro hmem
    obtain ⟨p, hp, rfl, hevent⟩ := h.exists_part_of_suffix hmem (List.suffix_refl (j :: site))
    exact ⟨p, hp, rfl, (h.traces p hp).answered_iff.mp hevent⟩
  · rintro ⟨p, hp, rfl, hv⟩
    exact h.mem_of_part hp ((h.traces p hp).answered_iff.mpr hv)

/-! ### Below a child -/

/-- Once a node is done, a child has contributed, or it is left out, or it is the name of a feature. -/
theorem Done.exists_part_or {parts : List Part} {tail : List Event} (done : Done node parts)
    (closes : Closes site node tail v?) {child : Node} {i : Nat}
    (hchild : node.children[i]? = some child) :
    (∃ p ∈ parts, p.index = i) ∨ node.Skips (Part.Answered parts) i ∨ child.identifier?.isSome := by
  rcases Node.mem_positions_or hchild with hposition | ⟨w, arguments, rfl, rfl⟩
  · rcases done.covered _ hposition with ⟨p, hp, hx⟩ | hskips
    · exact .inl ⟨p, hp, congrArg Prod.snd hx⟩
    · exact .inr (.inl hskips)
  · cases closes with
    | plain noCall => exact absurd rfl (noCall w child arguments)
    | invoked | returned => exact .inr (.inr rfl)

/-- Below a child, the log of a node is a log of the child. If the node has its answer then the child
has one, or it is left out, or it is the name of a feature. -/
theorem Trace.child (h : Trace site node es v?) {child : Node} {i : Nat}
    (hchild : node.children[i]? = some child) :
    ∃ u?, Trace (i :: site) child (es.filter (Event.isUnder (i :: site))) u? ∧
      (v?.isSome → u?.isSome ∨ node.Skips (fun j u => .answered (j :: site) u ∈ es) i ∨
        child.identifier?.isSome) := by
  obtain ⟨parts, work, tail, made, rfl, own, hend⟩ := h.exists_made
  rw [List.filter_append, filter_isUnder_own own, List.append_nil]
  by_cases hpart : ∃ p ∈ parts, p.index = i
  · obtain ⟨p, hp, rfl⟩ := hpart
    have hposition := Node.getElem?_of_mem_positions (made.woven.placed p hp)
    obtain rfl : p.node = child := Option.some.inj (hposition.symm.trans hchild)
    rw [made.filter_eq hp]
    refine ⟨p.answer?, made.traces p hp, fun hsome => .inl ?_⟩
    rcases hend with ⟨-, rfl⟩ | ⟨done, -⟩
    · cases hsome
    · exact done.answered p hp
  · rw [made.filter_eq_nil fun p hp hi => hpart ⟨p, hp, hi⟩]
    refine ⟨none, .idle _ _, fun hsome => .inr ?_⟩
    rcases hend with ⟨-, rfl⟩ | ⟨done, closes⟩
    · cases hsome
    · rcases done.exists_part_or closes hchild with hpart' | hskips | hname
      · exact absurd hpart' hpart
      · refine .inl (hskips.mono fun j u hu => ?_)
        exact List.mem_append_left tail (made.answered_iff.mpr hu)
      · exact .inr hname

/-- Below a child that is left out there are no events. -/
theorem Trace.filter_eq_nil_of_skips (h : Trace site node es v?) {i : Nat}
    (hskips : node.Skips (fun j u => .answered (j :: site) u ∈ es) i) :
    es.filter (Event.isUnder (i :: site)) = [] := by
  obtain ⟨parts, work, tail, made, rfl, own, -⟩ := h.exists_made
  have hskips : node.Skips (Part.Answered parts) i := by
    apply hskips.mono
    intro j u hu
    exact made.answered_iff.mp (mem_of_mem_append_own hu own (List.suffix_refl (j :: site)))
  have hparts : ∀ p ∈ parts, p.index ≠ i := by
    rintro p hp rfl
    exact made.woven.unskipped p hp hskips
  rw [List.filter_append, made.filter_eq_nil hparts, filter_isUnder_own own, List.append_nil]

/-- Of two parts that come one after the other, the first and all others before the second have answered
before the second has contributed. -/
theorem Woven.exists_split {parts : List Part} (h : Woven node parts es) {p q : Part} (hp : p ∈ parts)
    (hq : q ∈ parts) (hprecedes : node.Precedes p.index q.index) :
    ∃ front back, parts = front ++ q :: back ∧ p ∈ front ∧
      ∀ r ∈ front, r.answer?.isSome ∧ node.Precedes r.index q.index := by
  obtain ⟨-, ordered⟩ := h.sequenced hprecedes.isSequential
  obtain ⟨front, back, rfl⟩ := List.append_of_mem hq
  rw [List.pairwise_append, List.pairwise_cons] at ordered
  obtain ⟨-, ⟨hback, -⟩, across⟩ := ordered
  refine ⟨front, back, rfl, ?_, fun r hr => across r hr q List.mem_cons_self⟩
  rcases List.mem_append.mp hp with hp | hp
  · exact hp
  · rcases List.mem_cons.mp hp with rfl | hp
    · exact absurd hprecedes hprecedes.asymm
    · exact absurd (hback p hp).2 hprecedes.asymm

end RuleLang
