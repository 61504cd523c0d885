import RuleLang.Proofs.Optimizer.Settled

/-!
# Nesting levels

A tree at a nesting level fits when its deepest node stands at the deepest level or above.

* `Optimizer.Fits`: trees that stand within the levels.
* `Optimizer.fits_of_reduceAt`: a validated tree fits where it was validated.
* `Optimizer.reduceAt_of_room`: what a tree is validated to, it is validated to at any level with room
  for it.
* `Optimizer.orTooDeep_reduceAt`: at a deeper level validation answers as before or runs out of levels.
-/

namespace RuleLang

namespace Optimizer

variable {V : Type} {o : Optimizer V}

/-- A tree stands within the levels below a level. -/
def Fits (o : Optimizer V) (level : Nat) (node : Node) : Prop :=
  level + node.depth ≤ o.config.maxDepth + 1

/-- A constant fits at every level that is allowed. -/
theorem IsConstant.fits {r : Reduced V} {level : Nat} (h : o.IsConstant r)
    (hlevel : level ≤ o.config.maxDepth) : o.Fits level r.node := by
  obtain ⟨value, verbatim, rendered, -, rfl⟩ := h
  simp only [Fits, Node.ofValue, Node.depth]
  omega

/-- A tree that fits below a level fits at the level. -/
theorem Fits.of_succ {level : Nat} {node : Node} (h : o.Fits (level + 1) node) : o.Fits level node := by
  unfold Fits at *
  omega

/-- What a tree contributes to an enclosing chain fits where the tree does. -/
theorem Fits.flatten {op : LogicalOp} {level : Nat} {node part : Node} (h : o.Fits level node)
    (hpart : part ∈ o.flatten op node) : o.Fits level part := by
  unfold Optimizer.flatten at hpart
  split at hpart
  · rename_i w inner operands
    split at hpart
    · have hdeepest := Node.depth_le_deepest hpart
      simp only [Fits, Node.depth] at h ⊢
      omega
    · rwa [List.mem_singleton.mp hpart]
  · rwa [List.mem_singleton.mp hpart]

/-- A list of trees that fit is no deeper than a level leaves. -/
theorem deepest_le_of_fits {level : Nat} {nodes : List Node} (hlevel : level ≤ o.config.maxDepth)
    (h : ∀ node ∈ nodes, o.Fits (level + 1) node) :
    level + (1 + Node.deepest nodes) ≤ o.config.maxDepth + 1 := by
  have hdeepest : Node.deepest nodes ≤ o.config.maxDepth - level := Node.deepest_le fun node hnode => by
    have hfits := h node hnode
    unfold Fits at hfits
    omega
  omega

/-- What a chain over fitting operands becomes fits one level up. -/
theorem ChainOutcome.fits {op : LogicalOp} {operands : List (Reduced V)} {r : Reduced V} {level : Nat}
    (h : ChainOutcome o op operands r) (hlevel : level ≤ o.config.maxDepth)
    (fits : ∀ x ∈ operands, o.Fits (level + 1) x.node) : o.Fits level r.node := by
  cases h with
  | folded constant fold => exact (isConstant_of_fold fold).fits hlevel
  | decided mem decisive => exact (fits r mem).of_succ
  | neutral undecided absorbed literal => exact (isConstant_of_literal literal).fits hlevel
  | single undecided remaining =>
      have hmem : r ∈ o.remaining operands := by simp [remaining]
      exact (fits r (mem_remaining.mp hmem).1).of_succ
  | rendered undecided two literals fold => exact (isConstant_of_fold fold).fits hlevel
  | merged nodes undecided two notLiterals merge =>
      refine deepest_le_of_fits hlevel ?_
      intro node hnode
      rw [merge] at hnode
      obtain ⟨x, hx, hnode⟩ := List.mem_flatMap.mp hnode
      exact (fits x (mem_remaining.mp hx).1).flatten hnode

/-- A validated tree fits where it was validated. -/
theorem fits_of_reduceAt {level : Nat} {node : Node} {r : Reduced V}
    (h : o.reduceAt level node = .ok r) : o.Fits level r.node := by
  induction node generalizing level r with
  | literal w value verbatim =>
      obtain ⟨hlevel, h⟩ := reduceAt_literal_iff.mp h
      exact (isConstant_of_literal h).fits hlevel
  | identifier w name =>
      obtain ⟨hlevel, h⟩ := reduceAt_identifier_iff.mp h
      rcases identifier_eq_ok h with ⟨feature, -, rfl⟩ | ⟨shape, -, -, ⟨value, -, hfold⟩ | ⟨-, rfl⟩⟩
      · exact Nat.succ_le_succ hlevel
      · exact (isConstant_of_fold hfold).fits hlevel
      · exact Nat.succ_le_succ hlevel
  | unary w op operand ih =>
      obtain ⟨hlevel, x, hx, h⟩ := reduceAt_unary_iff.mp h
      have hfits := ih hx
      rcases unary_eq_ok h with ⟨value, -, hfold⟩ | ⟨-, rfl⟩
      · exact (isConstant_of_fold hfold).fits hlevel
      · simp only [Fits, Node.depth] at hfits ⊢
        omega
  | binary w op left right ihLeft ihRight =>
      obtain ⟨hlevel, x, hx, y, hy, h⟩ := reduceAt_binary_iff.mp h
      have hleft := ihLeft hx
      have hright := ihRight hy
      rcases binary_eq_ok h with ⟨a, b, value, -, -, -, hfold⟩ | ⟨-, rfl⟩
      · exact (isConstant_of_fold hfold).fits hlevel
      · simp only [Fits, Node.depth] at hleft hright ⊢
        omega
  | logical w op operands ih =>
      obtain ⟨hlevel, xs, hxs, h⟩ := reduceAt_logical_iff.mp h
      refine (logical_eq_ok h).fits hlevel ?_
      intro x hx
      obtain ⟨operand, hoperand, hreduce⟩ := exists_of_mem_forall₂ hxs hx
      exact ih operand hoperand hreduce
  | array w elements ih =>
      obtain ⟨hlevel, xs, hxs, h⟩ := reduceAt_array_iff.mp h
      rcases array_eq_ok h with ⟨-, hliteral⟩ | ⟨values, -, -, hfold⟩ | ⟨-, rfl⟩
      · exact (isConstant_of_literal hliteral).fits hlevel
      · exact (isConstant_of_fold hfold).fits hlevel
      · refine deepest_le_of_fits hlevel (List.forall_mem_map.mpr fun x hx => ?_)
        obtain ⟨element, helement, hreduce⟩ := exists_of_mem_forall₂ hxs hx
        exact ih element helement hreduce
  | conditional w test consequent alternate ihTest ihConsequent ihAlternate =>
      obtain ⟨hlevel, x, hx, y, hy, z, hz, h⟩ := reduceAt_conditional_iff.mp h
      have htest := ihTest hx
      have hconsequent := ihConsequent hy
      have halternate := ihAlternate hz
      rcases conditional_eq_ok h with
        ⟨value, -, rfl⟩ | ⟨t, c, a, -, -, -, -, hfold⟩ | ⟨-, -, rfl⟩
      · split
        · exact hconsequent.of_succ
        · exact halternate.of_succ
      · exact (isConstant_of_fold hfold).fits hlevel
      · simp only [Fits, Node.depth] at htest hconsequent halternate ⊢
        omega
  | sequence w expressions ih =>
      obtain ⟨hlevel, xs, hxs, h⟩ := reduceAt_sequence_iff.mp h
      have fits : ∀ x ∈ xs, o.Fits (level + 1) x.node := fun x hx => by
        obtain ⟨expression, hexpression, hreduce⟩ := exists_of_mem_forall₂ hxs hx
        exact ih expression hexpression hreduce
      rcases sequence_eq_ok h with ⟨-, hliteral⟩ | ⟨hlast, -⟩ | ⟨last, -, -, rfl⟩
      · exact (isConstant_of_literal hliteral).fits hlevel
      · exact (fits r (List.mem_of_getLast? hlast)).of_succ
      · exact deepest_le_of_fits hlevel (List.forall_mem_map.mpr fits)
  | call w callee arguments ihCallee ih =>
      obtain ⟨hlevel, x, hx, feature, hfeature, xs, hxs, h⟩ := reduceAt_call_iff.mp h
      have hcallee := ihCallee hx
      have fits : ∀ x ∈ xs, o.Fits (level + 1) x.node := by
        intro x hx
        obtain ⟨argument, hargument, hreduce⟩ := exists_of_mem_forall₂ hxs hx
        unfold ArgumentReduces at hreduce
        split at hreduce
        · obtain ⟨text, -, hlevel, hliteral⟩ := compiledArgument_eq_ok_iff.mp hreduce
          exact (isConstant_of_literal hliteral).fits hlevel
        · exact ih argument hargument hreduce
      obtain ⟨description, -, ⟨value, -, hfold⟩ | ⟨-, rfl⟩⟩ := call_eq_ok h
      · exact (isConstant_of_fold hfold).fits hlevel
      · have harguments := deepest_le_of_fits hlevel (List.forall_mem_map.mpr fits)
        simp only [Fits, Node.depth] at hcallee ⊢
        omega
  | member w object path ih =>
      obtain ⟨hlevel, x, hx, h⟩ := reduceAt_member_iff.mp h
      have hfits := ih hx
      rcases member_eq_ok h with ⟨value, found, -, -, hliteral⟩ |
        ⟨shape, found, -, -, -, ⟨value, -, hfold⟩ | ⟨-, rfl⟩⟩ | ⟨-, -, -, rfl⟩
      · exact (isConstant_of_literal hliteral).fits hlevel
      · exact (isConstant_of_fold hfold).fits hlevel
      all_goals
        simp only [Fits, Node.depth] at hfits ⊢
        omega

/-- A tree fits only at a level that is allowed. -/
theorem Fits.le {level : Nat} {node : Node} (h : o.Fits level node) : level ≤ o.config.maxDepth := by
  have hdepth := node.depth_pos
  unfold Fits at h
  omega

/-- Where a tree fits, its parts fit one level further down. -/
theorem Fits.child {level : Nat} {child node : Node} (h : o.Fits level node)
    (mem : child ∈ node.children) : o.Fits (level + 1) child := by
  have hdepth := Node.depth_lt_of_mem_children mem
  unfold Fits at *
  omega

/-- A level leaves room for a tree that is validated at some level: it is no deeper, or the tree fits. -/
def Room (o : Optimizer V) (level : Nat) (node : Node) (other : Nat) : Prop :=
  other ≤ level ∨ o.Fits other node

/-- A level that leaves room is allowed. -/
theorem Room.le {level other : Nat} {node : Node} (h : o.Room level node other)
    (hlevel : level ≤ o.config.maxDepth) : other ≤ o.config.maxDepth := by
  rcases h with h | h
  · exact Nat.le_trans h hlevel
  · exact h.le

/-- A level that leaves room for a tree leaves room for its parts one level further down. -/
theorem Room.child {level other : Nat} {child node : Node} (h : o.Room level node other)
    (mem : child ∈ node.children) : o.Room (level + 1) child (other + 1) := by
  rcases h with h | h
  · exact .inl (Nat.succ_le_succ h)
  · exact .inr (h.child mem)

/-- What a tree is validated to at a level, it is validated to at any level with room for it: the level
only bounds how deep the tree may go on. -/
theorem reduceAt_of_room {level other : Nat} {node : Node} {r : Reduced V}
    (room : o.Room level node other) (h : o.reduceAt level node = .ok r) :
    o.reduceAt other node = .ok r := by
  induction node generalizing level other r with
  | literal w value verbatim =>
      obtain ⟨hlevel, h⟩ := reduceAt_literal_iff.mp h
      exact reduceAt_literal_iff.mpr ⟨room.le hlevel, h⟩
  | identifier w name =>
      obtain ⟨hlevel, h⟩ := reduceAt_identifier_iff.mp h
      exact reduceAt_identifier_iff.mpr ⟨room.le hlevel, h⟩
  | unary w op operand ih =>
      obtain ⟨hlevel, x, hx, h⟩ := reduceAt_unary_iff.mp h
      have hx' := ih (room.child (by simp [Node.children])) hx
      exact reduceAt_unary_iff.mpr ⟨room.le hlevel, x, hx', h⟩
  | binary w op left right ihLeft ihRight =>
      obtain ⟨hlevel, x, hx, y, hy, h⟩ := reduceAt_binary_iff.mp h
      have hx' := ihLeft (room.child (by simp [Node.children])) hx
      have hy' := ihRight (room.child (by simp [Node.children])) hy
      exact reduceAt_binary_iff.mpr ⟨room.le hlevel, x, hx', y, hy', h⟩
  | logical w op operands ih =>
      obtain ⟨hlevel, xs, hxs, h⟩ := reduceAt_logical_iff.mp h
      have hxs' := forall₂_imp_of_mem hxs fun n hn x => ih n hn (room.child hn)
      exact reduceAt_logical_iff.mpr ⟨room.le hlevel, xs, hxs', h⟩
  | array w elements ih =>
      obtain ⟨hlevel, xs, hxs, h⟩ := reduceAt_array_iff.mp h
      have hxs' := forall₂_imp_of_mem hxs fun n hn x => ih n hn (room.child hn)
      exact reduceAt_array_iff.mpr ⟨room.le hlevel, xs, hxs', h⟩
  | conditional w test consequent alternate ihTest ihConsequent ihAlternate =>
      obtain ⟨hlevel, x, hx, y, hy, z, hz, h⟩ := reduceAt_conditional_iff.mp h
      have hx' := ihTest (room.child (by simp [Node.children])) hx
      have hy' := ihConsequent (room.child (by simp [Node.children])) hy
      have hz' := ihAlternate (room.child (by simp [Node.children])) hz
      exact reduceAt_conditional_iff.mpr ⟨room.le hlevel, x, hx', y, hy', z, hz', h⟩
  | sequence w expressions ih =>
      obtain ⟨hlevel, xs, hxs, h⟩ := reduceAt_sequence_iff.mp h
      have hxs' := forall₂_imp_of_mem hxs fun n hn x => ih n hn (room.child hn)
      exact reduceAt_sequence_iff.mpr ⟨room.le hlevel, xs, hxs', h⟩
  | call w callee arguments ihCallee ih =>
      obtain ⟨hlevel, x, hx, feature, hfeature, xs, hxs, h⟩ := reduceAt_call_iff.mp h
      have hx' := ihCallee (room.child List.mem_cons_self) hx
      have hxs' : List.Forall₂ (o.ArgumentReduces feature (other + 1)) arguments xs := by
        refine forall₂_imp_of_mem hxs fun argument hargument y hreduce => ?_
        have next := room.child (List.mem_cons_of_mem callee hargument)
        unfold ArgumentReduces at hreduce ⊢
        split at hreduce
        · obtain ⟨text, hcompile, hnext, hliteral⟩ := compiledArgument_eq_ok_iff.mp hreduce
          exact compiledArgument_eq_ok_iff.mpr ⟨text, hcompile, next.le hnext, hliteral⟩
        · exact ih argument hargument next hreduce
      exact reduceAt_call_iff.mpr ⟨room.le hlevel, x, hx', feature, hfeature, xs, hxs', h⟩
  | member w object path ih =>
      obtain ⟨hlevel, x, hx, h⟩ := reduceAt_member_iff.mp h
      have hx' := ih (room.child (by simp [Node.children])) hx
      exact reduceAt_member_iff.mpr ⟨room.le hlevel, x, hx', h⟩

/-! ### Running out of levels -/

/-- A second outcome is the first one, or the failure of a tree that is nested too deep. -/
def OrTooDeep {α : Type} (o : Optimizer V) (x y : Except RuleError α) : Prop :=
  y = x ∨ ∃ err, y = .error err ∧ err.rootCause = .depthExceeded o.config.maxDepth

/-- An outcome that stays the same is the first one. -/
theorem OrTooDeep.refl {α : Type} (x : Except RuleError α) : o.OrTooDeep x x :=
  .inl rfl

/-- One step after another comes to the same, or one of them is nested too deep. -/
theorem OrTooDeep.bind {α β : Type} {x y : Except RuleError α} {f g : α → Except RuleError β}
    (h : o.OrTooDeep x y) (hnext : ∀ a, o.OrTooDeep (f a) (g a)) :
    o.OrTooDeep (x >>= f) (y >>= g) := by
  rcases h with rfl | ⟨err, rfl, hcause⟩
  · cases y with
    | error err => exact .refl _
    | ok a => exact hnext a
  · exact .inr ⟨err, rfl, hcause⟩

/-- The check of a deeper level passes as before or fails for the level. -/
theorem orTooDeep_checkLevel {node : Node} {level other : Nat} (hle : level ≤ other) :
    o.OrTooDeep (o.checkLevel node level) (o.checkLevel node other) := by
  unfold checkLevel
  by_cases hother : o.config.maxDepth < other
  · exact .inr ⟨_, if_pos hother, rfl⟩
  · rw [if_neg hother, if_neg (by omega)]
    exact .refl _

/-- An argument that is compiled at a deeper level is compiled as before. -/
theorem orTooDeep_compiledArgument (compile : Node → Except RuleError String) (argument : Node)
    {level other : Nat} (hle : level ≤ other) :
    o.OrTooDeep (o.compiledArgument compile argument level)
      (o.compiledArgument compile argument other) := by
  unfold compiledArgument
  cases compile argument with
  | error err => exact .refl _
  | ok text => exact (orTooDeep_checkLevel hle).bind fun _ => .refl _

/-- A traversal answers as before or runs out of levels if each step does. -/
theorem OrTooDeep.mapM {α β : Type} {f g : α → Except RuleError β} {xs : List α}
    (h : ∀ x ∈ xs, o.OrTooDeep (f x) (g x)) : o.OrTooDeep (xs.mapM f) (xs.mapM g) := by
  induction xs with
  | nil => exact .refl _
  | cons x xs ih =>
      rw [List.forall_mem_cons] at h
      rw [List.mapM_cons, List.mapM_cons]
      exact h.1.bind fun _ => (ih h.2).bind fun _ => .refl _

/-- At a deeper level validation answers as before or runs out of levels. -/
theorem orTooDeep_reduceAt {level other : Nat} (hle : level ≤ other) (node : Node) :
    o.OrTooDeep (o.reduceAt level node) (o.reduceAt other node) := by
  induction node generalizing level other with
  | literal w value verbatim | identifier w name =>
      rw [Optimizer.reduceAt, Optimizer.reduceAt]
      exact (orTooDeep_checkLevel hle).bind fun _ => .refl _
  | unary w op operand ih | member w operand path ih =>
      rw [Optimizer.reduceAt, Optimizer.reduceAt]
      exact (orTooDeep_checkLevel hle).bind fun _ => (ih (by omega)).bind fun _ => .refl _
  | binary w op left right ihLeft ihRight =>
      rw [Optimizer.reduceAt, Optimizer.reduceAt]
      exact (orTooDeep_checkLevel hle).bind fun _ => (ihLeft (by omega)).bind fun _ =>
        (ihRight (by omega)).bind fun _ => .refl _
  | logical w op nodes ih | array w nodes ih | sequence w nodes ih =>
      rw [Optimizer.reduceAt, Optimizer.reduceAt]
      refine (orTooDeep_checkLevel hle).bind fun _ => ?_
      rw [reduceAll_eq_mapM, reduceAll_eq_mapM]
      exact (OrTooDeep.mapM fun n hn => ih n hn (by omega)).bind fun _ => .refl _
  | conditional w test consequent alternate ihTest ihConsequent ihAlternate =>
      rw [Optimizer.reduceAt, Optimizer.reduceAt]
      exact (orTooDeep_checkLevel hle).bind fun _ => (ihTest (by omega)).bind fun _ =>
        (ihConsequent (by omega)).bind fun _ => (ihAlternate (by omega)).bind fun _ => .refl _
  | call w callee arguments ihCallee ih =>
      rw [Optimizer.reduceAt, Optimizer.reduceAt]
      refine (orTooDeep_checkLevel hle).bind fun _ => (ihCallee (by omega)).bind fun x => ?_
      cases o.callee? x with
      | none => exact .refl _
      | some feature =>
          dsimp only
          cases feature.argumentCompiler? with
          | none =>
              dsimp only
              rw [reduceAll_eq_mapM, reduceAll_eq_mapM]
              exact (OrTooDeep.mapM fun n hn => ih n hn (by omega)).bind fun _ => .refl _
          | some compile =>
              refine (OrTooDeep.mapM fun n _ => ?_).bind fun _ => .refl _
              exact orTooDeep_compiledArgument compile n (by omega)

end Optimizer

end RuleLang
