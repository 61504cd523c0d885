import RuleLang.Proofs.Node.Names
import RuleLang.Proofs.Optimizer.Settled

/-!
# Names in validation

Validation invents no names: it asks for features only by names that the tree mentions, and the validated
tree mentions no others. Two optimizers that know the same features by these names therefore answer alike.

* `Optimizer.Becomes`: what a node becomes, as far as the parts of the result are concerned.
* `Optimizer.names_subset_of_reduceAt`: a validated tree mentions names of the tree only.
* `Optimizer.AgreeOn`: optimizers that differ at most in features of other names.
* `Optimizer.reduceAt_congr`: such optimizers answer alike.
-/

namespace RuleLang.Optimizer

variable {V : Type} {o o' : Optimizer V}

/-! ### Where the parts of a validated tree come from -/

/-- What is validated below a node: its direct subtrees, one level further down, or a constant. -/
def Below (o : Optimizer V) (level : Nat) (node : Node) (x : Reduced V) : Prop :=
  o.IsConstant x ∨ ∃ child ∈ node.children, o.reduceAt (level + 1) child = .ok x

/-- What a node becomes: it gives way to what is validated below it, stays a name, or stands over what
is validated below it, perhaps with some of that merged into it. -/
inductive Becomes (o : Optimizer V) (level : Nat) (node : Node) (r : Reduced V) : Prop
  | part (below : o.Below level node r)
  | name {name : String} (named : node.identifier? = some name) (stays : r.node = .identifier 1 name)
  | built (unnamed : r.node.identifier? = none)
      (parts : ∀ part ∈ r.node.children, ∃ x, o.Below level node x ∧
        (part = x.node ∨ part ∈ x.node.children))

variable {level : Nat} {node : Node} {r : Reduced V}

/-- A node may become a constant. -/
theorem Becomes.of_literal {value : Value} {verbatim : Bool} (h : o.literal value verbatim = .ok r) :
    o.Becomes level node r :=
  .part (.inl (isConstant_of_literal h))

/-- A node may fold. -/
theorem Becomes.of_fold {value : V} (h : o.fold value = .ok r) : o.Becomes level node r :=
  .part (.inl (isConstant_of_fold h))

/-- A node over validated trees stands over them. -/
theorem Becomes.of_map (xs : List (Reduced V)) (unnamed : r.node.identifier? = none)
    (children : r.node.children = xs.map Reduced.node) (below : ∀ x ∈ xs, o.Below level node x) :
    o.Becomes level node r := by
  refine .built unnamed fun part hpart => ?_
  rw [children] at hpart
  obtain ⟨x, hx, rfl⟩ := List.mem_map.mp hpart
  exact ⟨x, below x hx, .inl rfl⟩

/-- Subtrees that are validated one by one are validated below the node. -/
theorem below_of_forall₂ {nodes : List Node} {xs : List (Reduced V)}
    (h : List.Forall₂ (fun n x => o.reduceAt (level + 1) n = .ok x) nodes xs)
    (hnodes : nodes ⊆ node.children) : ∀ x ∈ xs, o.Below level node x := by
  intro x hx
  obtain ⟨child, hchild, hreduce⟩ := exists_of_mem_forall₂ h hx
  exact .inr ⟨child, hnodes hchild, hreduce⟩

/-- An operand contributes itself or its own operands to an enclosing chain. -/
theorem mem_flatten {op : LogicalOp} {part : Node} (h : part ∈ o.flatten op node) :
    part = node ∨ part ∈ node.children := by
  unfold flatten at h
  split at h
  · split at h
    · exact .inr h
    · exact .inl (List.mem_singleton.mp h)
  · exact .inl (List.mem_singleton.mp h)

/-- A chain becomes one of its operands, or stands over them. -/
theorem ChainOutcome.becomes {op : LogicalOp} {operands : List (Reduced V)}
    (h : ChainOutcome o op operands r) (below : ∀ x ∈ operands, o.Below level node x) :
    o.Becomes level node r := by
  cases h with
  | folded constant fold => exact .of_fold fold
  | decided mem decisive => exact .part (below r mem)
  | neutral undecided absorbed literal => exact .of_literal literal
  | single undecided remaining =>
      have hmem : r ∈ o.remaining operands := by simp [remaining]
      exact .part (below r (mem_remaining.mp hmem).1)
  | rendered undecided two literals fold => exact .of_fold fold
  | merged nodes undecided two notLiterals merge =>
      refine .built rfl fun part hpart => ?_
      subst merge
      obtain ⟨x, hx, hpart⟩ := List.mem_flatMap.mp hpart
      exact ⟨x, below x (mem_remaining.mp hx).1, mem_flatten hpart⟩

/-- What a validated node has become. -/
theorem becomes_of_reduceAt (h : o.reduceAt level node = .ok r) : o.Becomes level node r := by
  have child {n : Node} {x : Reduced V} (hx : o.reduceAt (level + 1) n = .ok x)
      (hn : n ∈ node.children) : o.Below level node x := .inr ⟨n, hn, hx⟩
  cases node with
  | literal w value verbatim => exact .of_literal (reduceAt_literal_iff.mp h).2
  | identifier w name =>
      rcases identifier_eq_ok (reduceAt_identifier_iff.mp h).2 with
        ⟨feature, -, rfl⟩ | ⟨shape, -, -, ⟨value, -, hfold⟩ | ⟨-, rfl⟩⟩
      · exact .name rfl rfl
      · exact .of_fold hfold
      · exact .name rfl rfl
  | unary w op operand =>
      obtain ⟨-, x, hx, h⟩ := reduceAt_unary_iff.mp h
      rcases unary_eq_ok h with ⟨value, -, hfold⟩ | ⟨-, rfl⟩
      · exact .of_fold hfold
      · exact .of_map [x] rfl rfl (by simp [child hx (by simp [Node.children])])
  | binary w op left right =>
      obtain ⟨-, x, hx, y, hy, h⟩ := reduceAt_binary_iff.mp h
      rcases binary_eq_ok h with ⟨a, b, value, -, -, -, hfold⟩ | ⟨-, rfl⟩
      · exact .of_fold hfold
      · refine .of_map [x, y] rfl rfl ?_
        simp [child hx (by simp [Node.children]), child hy (by simp [Node.children])]
  | logical w op operands =>
      obtain ⟨-, xs, hxs, h⟩ := reduceAt_logical_iff.mp h
      exact (logical_eq_ok h).becomes (below_of_forall₂ hxs fun _ hn => hn)
  | array w elements =>
      obtain ⟨-, xs, hxs, h⟩ := reduceAt_array_iff.mp h
      rcases array_eq_ok h with ⟨-, hliteral⟩ | ⟨values, -, -, hfold⟩ | ⟨-, rfl⟩
      · exact .of_literal hliteral
      · exact .of_fold hfold
      · exact .of_map _ rfl rfl (below_of_forall₂ hxs fun _ hn => hn)
  | conditional w test consequent alternate =>
      obtain ⟨-, x, hx, y, hy, z, hz, h⟩ := reduceAt_conditional_iff.mp h
      have below : ∀ part ∈ [x, y, z], o.Below level (.conditional w test consequent alternate) part := by
        simp [child hx (by simp [Node.children]), child hy (by simp [Node.children]),
          child hz (by simp [Node.children])]
      rcases conditional_eq_ok h with
        ⟨value, -, rfl⟩ | ⟨t, c, a, -, -, -, -, hfold⟩ | ⟨-, -, rfl⟩
      · split
        · exact .part (below y (by simp))
        · exact .part (below z (by simp))
      · exact .of_fold hfold
      · exact .of_map _ rfl rfl below
  | sequence w expressions =>
      obtain ⟨-, xs, hxs, h⟩ := reduceAt_sequence_iff.mp h
      have below : ∀ x ∈ xs, o.Below level (.sequence w expressions) x :=
        below_of_forall₂ hxs fun _ hn => hn
      rcases sequence_eq_ok h with ⟨-, hliteral⟩ | ⟨hlast, -⟩ | ⟨last, -, -, rfl⟩
      · exact .of_literal hliteral
      · exact .part (below r (List.mem_of_getLast? hlast))
      · exact .of_map _ rfl rfl below
  | call w callee arguments =>
      obtain ⟨-, x, hx, feature, -, xs, hxs, h⟩ := reduceAt_call_iff.mp h
      have below : ∀ y ∈ xs, o.Below level (.call w callee arguments) y := by
        intro y hy
        obtain ⟨argument, hargument, hreduce⟩ := exists_of_mem_forall₂ hxs hy
        unfold ArgumentReduces at hreduce
        split at hreduce
        · obtain ⟨text, -, -, hliteral⟩ := compiledArgument_eq_ok_iff.mp hreduce
          exact .inl (isConstant_of_literal hliteral)
        · exact .inr ⟨argument, List.mem_cons_of_mem _ hargument, hreduce⟩
      obtain ⟨description, -, ⟨value, -, hfold⟩ | ⟨-, rfl⟩⟩ := call_eq_ok h
      · exact .of_fold hfold
      · exact .of_map (x :: xs) rfl rfl
          (List.forall_mem_cons.mpr ⟨child hx List.mem_cons_self, below⟩)
  | member w object path =>
      obtain ⟨-, x, hx, h⟩ := reduceAt_member_iff.mp h
      have below : ∀ part ∈ [x], o.Below level (.member w object path) part := by
        simp [child hx (by simp [Node.children])]
      rcases member_eq_ok h with ⟨value, found, -, -, hliteral⟩ |
        ⟨shape, found, -, -, -, ⟨value, -, hfold⟩ | ⟨-, rfl⟩⟩ | ⟨-, -, -, rfl⟩
      · exact .of_literal hliteral
      · exact .of_fold hfold
      · exact .of_map _ rfl rfl below
      · exact .of_map _ rfl rfl below

/-- A validated tree mentions names of the tree only. -/
theorem names_subset_of_reduceAt (h : o.reduceAt level node = .ok r) : r.node.names ⊆ node.names := by
  induction node using Node.induction_children generalizing level r with
  | step node ih =>
      have below {x : Reduced V} (hx : o.Below level node x) : x.node.names ⊆ node.names := by
        rcases hx with ⟨value, verbatim, rendered, -, rfl⟩ | ⟨child, mem, hchild⟩
        · exact List.nil_subset _
        · exact List.Subset.trans (ih child mem hchild) (Node.names_subset_of_mem mem)
      cases becomes_of_reduceAt h with
      | part hr => exact below hr
      | name named stays =>
          intro name hname
          obtain rfl := List.mem_singleton.mp (stays ▸ hname)
          exact Node.mem_names_iff.mpr (.inl named)
      | built unnamed parts =>
          intro name hname
          rcases Node.mem_names_iff.mp hname with h | ⟨part, mem, hpart⟩
          · rw [unnamed] at h
            cases h
          · obtain ⟨x, hx, rfl | mem⟩ := parts part mem
            · exact below hx hpart
            · exact below hx (Node.names_subset_of_mem mem hpart)

/-! ### Optimizers that know the same features by the names of a tree -/

/-- Optimizers that differ at most in the features whose names are not among the given ones. -/
structure AgreeOn (names : List String) (o o' : Optimizer V) : Prop where
  domain : o.domain = o'.domain
  schema : o.schema = o'.schema
  config : o.config = o'.config
  feature? : ∀ name ∈ names, o.feature? name = o'.feature? name

/-- Optimizers that agree on the names of a tree agree on those of its parts. -/
theorem AgreeOn.child (h : AgreeOn node.names o o') {child : Node} (mem : child ∈ node.children) :
    AgreeOn child.names o o' :=
  ⟨h.domain, h.schema, h.config, fun name hname => h.feature? name (Node.names_subset_of_mem mem hname)⟩

/-- Optimizers that agree on some names differ in their features at most. -/
theorem AgreeOn.exists_features {names : List String} (h : AgreeOn names o o') :
    ∃ features, o' = { o with features := features } := by
  obtain ⟨hdomain, hschema, hconfig, -⟩ := h
  exact ⟨o'.features, by rw [hdomain, hschema, hconfig]⟩

/-- Steps that go on alike from every answer of the first one are alike. -/
theorem bind_congr_of_ok {α β : Type} {x : Except RuleError α} {f g : α → Except RuleError β}
    (h : ∀ a, x = .ok a → f a = g a) : (x >>= f) = (x >>= g) := by
  cases x with
  | error e => rfl
  | ok a => exact h a rfl

/-- Traversals that do the same with each item are alike. -/
theorem mapM_congr_of_mem {α β : Type} {f g : α → Except RuleError β} {xs : List α}
    (h : ∀ x ∈ xs, f x = g x) : xs.mapM f = xs.mapM g := by
  induction xs with
  | nil => rfl
  | cons x xs ih =>
      rw [List.forall_mem_cons] at h
      rw [List.mapM_cons, List.mapM_cons, h.1, ih h.2]

/-- A callee is found by a name that the tree of the callee mentions. -/
theorem AgreeOn.callee?_eq (h : AgreeOn node.names o o') {callee : Reduced V}
    (hcallee : o.reduceAt level node = .ok callee) : o.callee? callee = o'.callee? callee := by
  unfold callee?
  split
  · rename_i name origin
    have hnode := (settled_of_reduceAt hcallee).eq_of_origin origin
    refine h.feature? name (names_subset_of_reduceAt hcallee ?_)
    rw [hnode]
    exact List.mem_singleton_self name
  · rfl

/-- Optimizers that know the same features by the names of a tree answer alike for it. -/
theorem reduceAt_congr (h : AgreeOn node.names o o') :
    o.reduceAt level node = o'.reduceAt level node := by
  -- The rules of single nodes, but for names and callees, do not look at the features.
  obtain ⟨features, rfl⟩ := h.exists_features
  induction node generalizing level with
  | literal w value verbatim =>
      rw [reduceAt, reduceAt]
      rfl
  | identifier w name =>
      have hname := h.feature? name (List.mem_singleton_self name)
      rw [reduceAt, reduceAt]
      unfold identifier
      rw [hname]
      rfl
  | unary w op operand ih =>
      rw [reduceAt, reduceAt, ih (h.child List.mem_cons_self)]
      rfl
  | binary w op left right ihLeft ihRight =>
      rw [reduceAt, reduceAt, ihLeft (h.child (by simp [Node.children])),
        ihRight (h.child (by simp [Node.children]))]
      rfl
  | logical w op nodes ih | array w nodes ih | sequence w nodes ih =>
      rw [reduceAt, reduceAt, reduceAll_eq_mapM, reduceAll_eq_mapM,
        mapM_congr_of_mem fun n hn => ih n hn (h.child hn)]
      rfl
  | conditional w test consequent alternate ihTest ihConsequent ihAlternate =>
      rw [reduceAt, reduceAt, ihTest (h.child (by simp [Node.children])),
        ihConsequent (h.child (by simp [Node.children])),
        ihAlternate (h.child (by simp [Node.children]))]
      rfl
  | call w callee arguments ihCallee ih =>
      have hcallee : AgreeOn callee.names o _ := h.child List.mem_cons_self
      have harguments : ∀ n ∈ arguments,
          o.reduceAt (level + 1) n = ({ o with features := features } : Optimizer V).reduceAt (level + 1) n :=
        fun n hn => ih n hn (h.child (List.mem_cons_of_mem _ hn))
      rw [reduceAt, reduceAt, ← ihCallee hcallee]
      refine bind_congr_of_ok fun _ _ => bind_congr_of_ok fun x hx => ?_
      rw [← hcallee.callee?_eq hx]
      cases o.callee? x with
      | none => rfl
      | some feature =>
          simp only [reduceAll_eq_mapM, mapM_congr_of_mem harguments]
          rfl
  | member w object path ih =>
      rw [reduceAt, reduceAt, ih (h.child List.mem_cons_self)]
      rfl

end RuleLang.Optimizer
