import Mathlib.Data.List.Basic
import RuleLang.Proofs.Evaluation.Answers

/-!
# The order of the operands of a chain

Operands are evaluated in ascending order of their weights, equally heavy ones in the order in which they
stand. Leaving operands out does not disturb the order of the others, so a chain made of two lists of
operands comes to what the one or the other list alone comes to.

* `pairwise_mergeSort_stable`: sorting by a key keeps the order of members with the same key.
* `Evaluator.eq_of_ofWeight`: an ascending list is made of its operands of each weight, in their order.
* `Evaluator.filter_byWeight`: leaving operands out before or after they are put in order is the same.
* `Evaluator.choice`: the operand that gives a chain its value.
* `Evaluator.pick_append`, `Evaluator.pick_filter`: the value of a chain and that of parts of it.
-/

namespace RuleLang

/-! ### Sorting by a key -/

/-- Comparing by a key is transitive. -/
theorem key_trans {α : Type} (key : α → Nat) (a b c : α) (hab : decide (key a ≤ key b))
    (hbc : decide (key b ≤ key c)) : decide (key a ≤ key c) := by
  simp only [decide_eq_true_eq] at *
  omega

/-- Comparing by a key is total. -/
theorem key_total {α : Type} (key : α → Nat) (a b : α) :
    decide (key a ≤ key b) || decide (key b ≤ key a) := by
  simp only [Bool.or_eq_true, decide_eq_true_eq]
  omega

/-- A stable sort by a key keeps what holds of any two members in their order where the keys are equal. -/
theorem pairwise_mergeSort_stable {α : Type} (key : α → Nat) {R : α → α → Prop} {xs : List α}
    (h : xs.Pairwise R) :
    (xs.mergeSort fun a b => key a ≤ key b).Pairwise
      fun a b => key a < key b ∨ key a = key b ∧ R a b := by
  induction xs with
  | nil => simp
  | cons x xs ih =>
      rw [List.pairwise_cons] at h
      -- The first member goes before the others that are no smaller.
      obtain ⟨front, back, hcons, hrest, hfront⟩ := List.mergeSort_cons (key_trans key) (key_total key) x xs
      have hsorted := List.pairwise_mergeSort (key_trans key) (key_total key) (x :: xs)
      rw [hcons, List.pairwise_append, List.pairwise_cons] at hsorted
      have hbehind : ∀ b ∈ back, key x < key b ∨ key x = key b ∧ R x b := by
        intro b hb
        have hle := of_decide_eq_true (hsorted.2.1.1 b hb)
        have hmem : b ∈ xs := by
          have perm := List.mergeSort_perm xs fun a b => decide (key a ≤ key b)
          rw [hrest] at perm
          exact perm.subset (List.mem_append_right front hb)
        rcases Nat.lt_or_eq_of_le hle with hlt | heq
        · exact .inl hlt
        · exact .inr ⟨heq, h.1 b hmem⟩
      have hbefore : ∀ a ∈ front, key a < key x := by
        intro a ha
        simpa using hfront a ha
      have ih := ih h.2
      rw [hrest, List.pairwise_append] at ih
      rw [hcons, List.pairwise_append, List.pairwise_cons]
      refine ⟨ih.1, ⟨hbehind, ih.2.1⟩, fun a ha b hb => ?_⟩
      rcases List.mem_cons.mp hb with rfl | hb
      · exact .inl (hbefore a ha)
      · exact ih.2.2 a ha b hb

namespace Evaluator

variable {α β : Type} {operands others : List (Weight × α)}

/-! ### Ascending lists -/

/-- No operand is heavier than one after it. -/
abbrev Ascending (operands : List (Weight × α)) : Prop :=
  operands.Pairwise fun a b => a.1.toNat ≤ b.1.toNat

/-- The operands of one weight, in their order. -/
def ofWeight (w : Nat) (operands : List (Weight × α)) : List (Weight × α) :=
  operands.filter fun x => x.1.toNat = w

/-- The operands of a weight are those of all operands that have it. -/
theorem mem_ofWeight {w : Nat} {x : Weight × α} :
    x ∈ ofWeight w operands ↔ x ∈ operands ∧ x.1.toNat = w := by
  simp [ofWeight]

/-- In an ascending list the first operand is the cheapest. -/
theorem Ascending.of_cons {first x : Weight × α} (h : Ascending (first :: operands))
    (mem : x ∈ first :: operands) : first.1.toNat ≤ x.1.toNat := by
  rcases List.mem_cons.mp mem with rfl | mem
  · exact Nat.le_refl _
  · exact List.rel_of_pairwise_cons h mem

/-- Ascending lists with the same operands of each weight, in the same order, are the same. -/
theorem eq_of_ofWeight (h : Ascending operands) (hothers : Ascending others)
    (same : ∀ w, ofWeight w operands = ofWeight w others) : operands = others := by
  have mem_iff (x : Weight × α) : x ∈ operands ↔ x ∈ others := by
    have hx := congrArg (x ∈ ·) (same x.1.toNat)
    simpa only [mem_ofWeight, and_true, eq_iff_iff] using hx
  induction operands generalizing others with
  | nil =>
      cases others with
      | nil => rfl
      | cons y others => exact absurd ((mem_iff y).mpr List.mem_cons_self) List.not_mem_nil
  | cons x operands ih =>
      cases others with
      | nil => exact absurd ((mem_iff x).mp List.mem_cons_self) List.not_mem_nil
      | cons y others =>
          have hxy : x.1.toNat = y.1.toNat :=
            Nat.le_antisymm (h.of_cons ((mem_iff y).mpr List.mem_cons_self))
              (hothers.of_cons ((mem_iff x).mp List.mem_cons_self))
          have hfirst := same x.1.toNat
          rw [ofWeight, ofWeight, List.filter_cons_of_pos (by simp),
            List.filter_cons_of_pos (by simp [hxy]), List.cons.injEq] at hfirst
          obtain ⟨rfl, hrest⟩ := hfirst
          have hsame (w : Nat) : ofWeight w operands = ofWeight w others := by
            by_cases hw : x.1.toNat = w
            · rw [← hw]
              exact hrest
            · have hother := same w
              rwa [ofWeight, ofWeight, List.filter_cons_of_neg (by simpa using hw),
                List.filter_cons_of_neg (by simpa using hw)] at hother
          rw [ih (List.Pairwise.of_cons h) (List.Pairwise.of_cons hothers) hsame fun z => ?_]
          have hz := congrArg (z ∈ ·) (hsame z.1.toNat)
          simpa only [mem_ofWeight, and_true, eq_iff_iff] using hz

/-! ### Operands by weight -/

/-- Ordered by weight, operands are ascending. -/
theorem ascending_byWeight (operands : List (Weight × α)) : Ascending (byWeight operands) :=
  (List.pairwise_mergeSort (key_trans fun x : Weight × α => x.1.toNat)
    (key_total fun x : Weight × α => x.1.toNat) operands).imp of_decide_eq_true

/-- Equally heavy operands keep their order. -/
theorem ofWeight_byWeight (w : Nat) (operands : List (Weight × α)) :
    ofWeight w (byWeight operands) = ofWeight w operands := by
  have level : (ofWeight w operands).Pairwise fun a b => decide (a.1.toNat ≤ b.1.toNat) :=
    List.pairwise_of_forall_mem_list fun a ha b hb => by
      rw [(mem_ofWeight.mp ha).2, (mem_ofWeight.mp hb).2]
      exact decide_eq_true (Nat.le_refl w)
  have inside : List.Sublist (ofWeight w operands) (byWeight operands) :=
    List.sublist_mergeSort (key_trans fun x : Weight × α => x.1.toNat)
      (key_total fun x : Weight × α => x.1.toNat) level List.filter_sublist
  have among : List.Sublist (ofWeight w operands) (ofWeight w (byWeight operands)) := by
    have h := inside.filter fun x => x.1.toNat = w
    rwa [ofWeight, List.filter_eq_self.mpr fun x hx => by simpa using (mem_ofWeight.mp hx).2] at h
  exact (among.eq_of_length ((byWeight_perm operands).filter _).length_eq.symm).symm

/-- Leaving operands out before or after they are put in order is the same. -/
theorem filter_byWeight (p : Weight × α → Bool) (operands : List (Weight × α)) :
    (byWeight operands).filter p = byWeight (operands.filter p) := by
  refine eq_of_ofWeight ((ascending_byWeight operands).filter p) (ascending_byWeight _) fun w => ?_
  calc ofWeight w ((byWeight operands).filter p)
      = (ofWeight w (byWeight operands)).filter p := List.filter_comm _ _ _
    _ = (ofWeight w operands).filter p := by rw [ofWeight_byWeight]
    _ = ofWeight w (operands.filter p) := List.filter_comm _ _ _
    _ = ofWeight w (byWeight (operands.filter p)) := (ofWeight_byWeight w _).symm

/-- Operands that stand in order stay as they are. -/
theorem byWeight_eq_self (h : Ascending operands) : byWeight operands = operands :=
  eq_of_ofWeight (ascending_byWeight operands) h fun w => ofWeight_byWeight w operands

/-! ### The value of a chain -/

variable {op : LogicalOp} {value : α → Value}

/-- The operand that gives a chain its value: the first that decides it, else the last one. -/
def choice (op : LogicalOp) (value : α → Value) (operands : List (Weight × α)) : Option (Weight × α) :=
  (operands.find? fun x => op.decides (value x.2).isTruthy).or operands.getLast?

/-- The value of a chain is that of the chosen operand. -/
theorem combine_eq_choice (op : LogicalOp) (value : α → Value) (operands : List (Weight × α)) :
    op.combine (operands.map fun x => value x.2) =
      ((choice op value operands).map fun x => value x.2).getD (.bool op.neutral) := by
  have hfind : (operands.map fun x => value x.2).find? (fun v => op.decides v.isTruthy) =
      (operands.find? fun x => op.decides (value x.2).isTruthy).map fun x => value x.2 :=
    List.find?_map
  unfold choice LogicalOp.combine
  rw [hfind, List.getLast?_map]
  cases operands.find? fun x => op.decides (value x.2).isTruthy with
  | none => rfl
  | some x => rfl

/-- Of at least one operand, one is chosen. -/
theorem exists_choice (op : LogicalOp) (value : α → Value) (hne : operands ≠ []) :
    ∃ x ∈ operands, choice op value operands = some x := by
  unfold choice
  cases hfind : operands.find? fun x => op.decides (value x.2).isTruthy with
  | some x => exact ⟨x, List.mem_of_find?_eq_some hfind, rfl⟩
  | none => exact ⟨operands.getLast hne, List.getLast_mem hne, List.getLast?_eq_some_getLast hne⟩

/-- A chosen operand stays chosen when others are left out. -/
theorem choice_filter {p : Weight × α → Bool} {x : Weight × α} (h : choice op value operands = some x)
    (hx : p x) : choice op value (operands.filter p) = some x := by
  unfold choice at h ⊢
  cases hfind : operands.find? fun x => op.decides (value x.2).isTruthy with
  | some first =>
      rw [hfind, Option.some_or, Option.some.injEq] at h
      subst h
      obtain ⟨decides, before, after, rfl, undecided⟩ := List.find?_eq_some_iff_append.mp hfind
      have hbefore : (before.filter p).find? (fun x => op.decides (value x.2).isTruthy) = none :=
        List.find?_eq_none.mpr fun y hy => by simpa using undecided y (List.mem_of_mem_filter hy)
      rw [List.filter_append, List.filter_cons_of_pos hx, List.find?_append, hbefore, Option.none_or,
        List.find?_cons, decides, Option.some_or]
  | none =>
      rw [hfind, Option.none_or] at h
      obtain ⟨before, rfl⟩ := List.getLast?_eq_some_iff.mp h
      have undecided := List.find?_eq_none.mp hfind
      rw [List.find?_eq_none.mpr fun y hy => undecided y (List.mem_of_mem_filter hy), Option.none_or,
        List.filter_append, List.filter_cons_of_pos hx, List.filter_nil, List.getLast?_concat]

/-- The value of a chain of operands with these weights. -/
def pick (op : LogicalOp) (value : α → Value) (operands : List (Weight × α)) : Value :=
  op.combine ((byWeight operands).map fun x => value x.2)

/-- Operands that are changed under their weights are picked as before. -/
theorem pick_map (value : α → Value) (f : β → α) (operands : List (Weight × β)) :
    pick op value (operands.map fun x => (x.1, f x.2)) = pick op (fun y => value (f y)) operands := by
  unfold pick
  rw [← map_byWeight, List.map_map]
  rfl

/-- The value of a chain is that of the chosen operand. -/
theorem pick_of_choice {x : Weight × α} (h : choice op value (byWeight operands) = some x) :
    pick op value operands = value x.2 := by
  rw [pick, combine_eq_choice, h, Option.map_some, Option.getD_some]

/-- Of one operand, that one is picked. -/
theorem pick_singleton (value : α → Value) (x : Weight × α) : pick op value [x] = value x.2 := by
  have hmem : op.combine [value x.2] ∈ [value x.2] := LogicalOp.combine_mem (List.cons_ne_nil _ _)
  simpa [pick, byWeight] using hmem

/-- Leaving out operands that are not chosen leaves the value of a chain as it is. -/
theorem pick_filter {p : Weight × α → Bool} {x : Weight × α}
    (h : choice op value (byWeight operands) = some x) (hx : p x) :
    pick op value (operands.filter p) = pick op value operands := by
  rw [pick_of_choice h, pick_of_choice]
  rw [← filter_byWeight]
  exact choice_filter h hx

/-- Neutral operands that weigh nothing may be left out beside one that weighs something. -/
theorem pick_filter_of_neutral {p : Weight × α → Bool} {heavy : Weight × α}
    (neutral : ∀ x ∈ operands, ¬ p x → x.1.toNat = 0 ∧ (value x.2).isTruthy = op.neutral)
    (mem : heavy ∈ operands) (hheavy : 0 < heavy.1.toNat) :
    pick op value (operands.filter p) = pick op value operands := by
  have hmem : heavy ∈ byWeight operands := (byWeight_perm operands).mem_iff.mpr mem
  obtain ⟨x, hx, hchoice⟩ := exists_choice op value (List.ne_nil_of_mem hmem)
  refine pick_filter hchoice (Decidable.byContradiction fun left => ?_)
  obtain ⟨hweight, hneutral⟩ := neutral x ((byWeight_perm operands).mem_iff.mp hx) left
  unfold choice at hchoice
  cases hfind : (byWeight operands).find? fun x => op.decides (value x.2).isTruthy with
  | some first =>
      rw [hfind, Option.some_or, Option.some.injEq] at hchoice
      subst hchoice
      have decides := List.find?_some hfind
      rw [LogicalOp.decides_iff, hneutral] at decides
      exact absurd decides (by cases op.neutral <;> decide)
  | none =>
      -- the chosen operand is the last one, and so no lighter than the heavy one
      rw [hfind, Option.none_or] at hchoice
      obtain ⟨before, hbefore⟩ := List.getLast?_eq_some_iff.mp hchoice
      have ascending := ascending_byWeight operands
      rw [hbefore] at ascending hmem
      rcases List.mem_append.mp hmem with hmem | hmem
      · have hle := (List.pairwise_append.mp ascending).2.2 heavy hmem x List.mem_cons_self
        omega
      · rw [List.mem_singleton.mp hmem] at hheavy
        omega

/-- The first operand that weighs nothing and decides a chain gives it its value. -/
theorem pick_of_weightless {x : Weight × α}
    (h : operands.find? (fun x => x.1.toNat = 0 ∧ op.decides (value x.2).isTruthy) = some x) :
    pick op value operands = value x.2 := by
  have hfound := List.find?_some h
  rw [decide_eq_true_eq] at hfound
  obtain ⟨hx, decides⟩ := hfound
  have mem : x ∈ byWeight operands := (byWeight_perm operands).mem_iff.mpr (List.mem_of_find?_eq_some h)
  have found : ((byWeight operands).find? fun x => op.decides (value x.2).isTruthy).isSome :=
    List.find?_isSome.mpr ⟨x, mem, decides⟩
  obtain ⟨first, hfirst⟩ := Option.isSome_iff_exists.mp found
  have hchoice : choice op value (byWeight operands) = some first := by rw [choice, hfirst, Option.some_or]
  obtain ⟨hdecides, before, after, hsplit, undecided⟩ := List.find?_eq_some_iff_append.mp hfirst
  have hweight : first.1.toNat = 0 := by
    have ascending := ascending_byWeight operands
    rw [hsplit] at ascending mem
    rcases List.mem_append.mp mem with hbefore | hafter
    · exact absurd decides (by simpa using undecided x hbefore)
    · have hle := Ascending.of_cons (List.pairwise_append.mp ascending).2.1 hafter
      omega
  -- among the operands that weigh nothing the order by weight is the one in which they stand
  have hlight := choice_filter (p := fun y => y.1.toNat = 0) hchoice (decide_eq_true hweight)
  rw [filter_byWeight, byWeight_eq_self, choice, List.find?_filter] at hlight
  · simp only [decide_eq_true_eq] at hlight
    rw [h, Option.some_or, Option.some.injEq] at hlight
    rw [pick_of_choice hchoice, hlight]
  · refine List.pairwise_of_forall_mem_list fun a ha b hb => ?_
    rw [of_decide_eq_true (List.mem_filter.mp ha).2]
    exact Nat.zero_le _

/-- An operand that remembers which of two lists it is from. -/
def marked (first : Bool) (operands : List (Weight × α)) : List (Weight × Bool × α) :=
  operands.map fun x => (x.1, first, x.2)

/-- A mark on the operands makes no difference to the pick. -/
theorem pick_marked (first : Bool) (operands : List (Weight × α)) :
    pick op (fun y : Bool × α => value y.2) (marked first operands) = pick op value operands :=
  pick_map _ (fun a => (first, a)) operands

/-- The marks on operands tell them from those with the other mark. -/
theorem filter_marked (first kept : Bool) (operands : List (Weight × α)) :
    (marked first operands).filter (fun y => y.2.1 == kept) =
      if first = kept then marked first operands else [] := by
  cases first <;> cases kept <;> simp [marked, List.filter_map, Function.comp_def]

/-- A chain of the operands of two lists comes to what one of the lists comes to. -/
theorem pick_append (value : α → Value) (operands others : List (Weight × α)) :
    pick op value (operands ++ others) = pick op value operands ∨
      pick op value (operands ++ others) = pick op value others := by
  by_cases hne : marked true operands ++ marked false others = []
  · rw [List.append_eq_nil_iff, marked, List.map_eq_nil_iff] at hne
    rw [hne.1]
    exact .inr rfl
  · have hboth : pick op (fun y : Bool × α => value y.2) (marked true operands ++ marked false others) =
        pick op value (operands ++ others) := by
      rw [← pick_map value Prod.snd, List.map_append, marked, marked, List.map_map, List.map_map]
      simp [Function.comp_def]
    have hsorted : byWeight (marked true operands ++ marked false others) ≠ [] := by
      intro hnil
      have hperm := byWeight_perm (marked true operands ++ marked false others)
      rw [hnil] at hperm
      exact hne hperm.symm.eq_nil
    obtain ⟨⟨w, first, a⟩, -, hchoice⟩ :=
      exists_choice op (fun y : Bool × α => value y.2) hsorted
    -- the operands of the other list may be left out
    have hpart := pick_filter (p := fun y => y.2.1 == first) hchoice (beq_self_eq_true first)
    rw [List.filter_append, filter_marked, filter_marked, hboth] at hpart
    cases first with
    | true => exact .inl (by rw [← hpart]; simp [pick_marked])
    | false => exact .inr (by rw [← hpart]; simp [pick_marked])

/-- Weights that put operands in the same order give a chain of them the same value. -/
theorem pick_congr (value : α → Value) {items : List β} {first second : β → Weight} (f : β → α)
    (order : ∀ x ∈ items, ∀ y ∈ items,
      (first x).toNat ≤ (first y).toNat ↔ (second x).toNat ≤ (second y).toNat) :
    pick op value (items.map fun x => (first x, f x)) =
      pick op value (items.map fun x => (second x, f x)) := by
  -- the first weights order operands that carry the second ones along
  let both : List (Weight × Weight × α) := items.map fun x => (first x, second x, f x)
  have hsame : (byWeight both).map Prod.snd = byWeight (both.map Prod.snd) :=
    List.map_mergeSort fun a ha b hb => by
      obtain ⟨x, hx, rfl⟩ := List.mem_map.mp ha
      obtain ⟨y, hy, rfl⟩ := List.mem_map.mp hb
      exact decide_eq_decide.mpr (order x hx y hy)
  calc pick op value (items.map fun x => (first x, f x))
      = pick op value (both.map fun x => (x.1, x.2.2)) := by rw [List.map_map]; rfl
    _ = op.combine (((byWeight both).map Prod.snd).map fun x => value x.2) := by
        rw [pick_map, pick, List.map_map]; rfl
    _ = pick op value (items.map fun x => (second x, f x)) := by
        rw [hsame, List.map_map, pick]; rfl

/-! ### Chains of trees -/

/-- The value of a chain of one operand is the value of that operand. -/
theorem combine_valuesByWeight_singleton {node : Node} {v : Value} :
    op.combine (valuesByWeight [node] [v]) = v :=
  pick_singleton id (node.weight, v)

/-- A chain of the trees of two lists has the value that a chain of one of the lists has. -/
theorem combine_valuesByWeight_append (op : LogicalOp) {nodes others : List Node} {vs ws : List Value}
    (h : nodes.length = vs.length) :
    op.combine (valuesByWeight (nodes ++ others) (vs ++ ws)) = op.combine (valuesByWeight nodes vs) ∨
      op.combine (valuesByWeight (nodes ++ others) (vs ++ ws)) =
        op.combine (valuesByWeight others ws) := by
  unfold valuesByWeight
  rw [List.zip_append h, List.map_append]
  exact pick_append id _ _

end Evaluator

end RuleLang
