import RuleLang.Feature.Classifier
import RuleLang.Proofs.Node.Unmarked
import RuleLang.Proofs.Optimizer.Visits
import RuleLang.Proofs.Schema.Texts
import RuleLang.Proofs.Sql.Compiled

/-!
# What holds of all compiled text

A property of fragments that literals have and that operators keep holds of everything that a tree compiles
to, when the columns, the parameters and the classifiers of the compiler have it. Nothing else finds its way
into compiled text: a tree that was read holds no text of its own that is written unchanged.

* `Sql.Kept`: a property that literals have and that operators keep.
* `Sql.Compiler.Over`: the texts that a compiler writes unchanged have it.
* `Sql.Carries`: it holds of what is known of a validated tree.
* `Sql.Kept.rule`, `Sql.Kept.reduceAt`: a rule keeps it, and so does validation.
* `Sql.Kept.exists_compileToSql`: compiled text is that of a fragment that has it.
-/

namespace RuleLang.Sql

/-- A property of fragments that literals have and that operators keep. -/
structure Kept (P : Fragment → Prop) : Prop where
  literal : ∀ value f, renderLiteral value false = .ok f → P f
  element : ∀ value f, renderElement value false = .ok f → P f
  unary : ∀ op f, P f → P (Sql.unary op f)
  binary : ∀ op f g result, Sql.binary op f g = .ok result → P f → P g → P result
  logical : ∀ op fs, (∀ f ∈ fs, P f) → P (Sql.logical op fs)
  array : ∀ fs : List Fragment, (∀ f ∈ fs, P f) → P (.list (fs.map Fragment.toSql))
  conditional : ∀ test f g, P test → P f → P g → P (Sql.conditional test f g)

/-- A compiler with classifiers as its only features, which writes nothing unchanged but texts with a
property. -/
structure Compiler.Over (P : Fragment → Prop) (compiler : Compiler) : Prop where
  domain : compiler.domain = Sql.domain
  schema : ∀ text ∈ compiler.schema.texts, P (.text text)
  features : ∀ entry ∈ compiler.features,
    ∃ classifier : Classifier, P (.text classifier.membership) ∧ entry.2 = classifier.sqlFeature

/-- The constant of a validated tree has a property, a verbatim literal holds that constant, and so do the
texts of the shape of its value. -/
structure Carries (P : Fragment → Prop) (r : Reduced Fragment) : Prop where
  rendered : ∀ f, r.result.literal? = some f → P f
  stored : ∀ value, r.node.literal? = some (value, true) →
    ∃ f, r.result.literal? = some f ∧ value = (store f).1
  shape : ∀ shape, r.result.shape? = some shape → ∀ text ∈ shape.texts, P (.text text)

open Optimizer

variable {P : Fragment → Prop} {o : Compiler} {r x y z : Reduced Fragment}
  {xs : List (Reduced Fragment)} {f : Fragment} {shape : Shape}

/-! ### Single trees -/

/-- A computation carries a property if the shape of its value does. -/
theorem carries_computed {node : Node} {estimate : TypeEstimate} {weight : Weight}
    {shape? : Option Shape} (hnode : node.literal? = none)
    (hshape : ∀ shape, shape? = some shape → ∀ text ∈ shape.texts, P (.text text)) :
    Carries P ⟨node, .ofComputed estimate weight shape?⟩ where
  rendered f h := by cases h
  stored value h := by
    rw [hnode] at h
    cases h
  shape := hshape

/-- A computation whose value has no known shape carries any property. -/
theorem carries_shapeless {node : Node} {estimate : TypeEstimate} {weight : Weight}
    (hnode : node.literal? = none) : Carries P ⟨node, .ofComputed estimate weight none⟩ :=
  carries_computed hnode fun _ h => by cases h

/-- A tree with a declared shape carries the property if the texts of the shape do. -/
theorem carries_declared {node : Node} {estimate : TypeEstimate} {weight : Weight}
    (hnode : node.literal? = none) (hshape : ∀ text ∈ shape.texts, P (.text text)) :
    Carries P ⟨node, ⟨estimate, weight, .declared shape⟩⟩ where
  rendered f h := by cases h
  stored value h := by
    rw [hnode] at h
    cases h
  shape found h := by
    cases h
    exact hshape

/-- What is stored is a verbatim literal of a fragment. -/
theorem carries_fold (ho : o.Over P) (hf : P f) (h : o.fold f = .ok r) : Carries P r := by
  rw [fold_eq ho.domain] at h
  cases h
  exact {
    rendered := fun g hg => by
      cases hg
      exact hf
    stored := fun value hvalue => by
      cases hvalue
      exact ⟨f, rfl, rfl⟩
    shape := fun shape hshape => by cases hshape }

/-- A literal carries the property. -/
theorem carries_literal (kept : Kept P) (ho : o.Over P) {value : Value}
    (h : o.literal value false = .ok r) : Carries P r := by
  obtain ⟨f, hrendered, rfl⟩ := literal_eq_ok_iff.mp h
  rw [ho.domain] at hrendered
  exact {
    rendered := fun g hg => by
      cases hg
      exact kept.literal value f hrendered
    stored := fun other hother => by cases hother
    shape := fun shape hshape => by cases hshape }

/-- A column or a parameter is one of the texts of its shape. -/
theorem splice_has (ho : o.Over P) (hshape : ∀ text ∈ shape.texts, P (.text text))
    (h : o.domain.splice shape = some f) : P f := by
  rw [ho.domain] at h
  cases shape with
  | field column =>
      cases h
      exact hshape column List.mem_cons_self
  | placeholder marker =>
      cases h
      exact hshape marker List.mem_cons_self
  | scalar name => cases h
  | object members => cases h

/-- The constants of trees that carry the property have it. -/
theorem constants_have (h : ∀ x ∈ xs, Carries P x) : ∀ f ∈ constants xs, P f := by
  intro f hf
  obtain ⟨x, hx, hliteral⟩ := List.mem_filterMap.mp hf
  exact (h x hx).rendered f hliteral

/-- A literal is written as a fragment that has the property, wherever it stands. -/
theorem Carries.of_renderLiteral (kept : Kept P) (h : Carries P x) {value : Value} {verbatim : Bool}
    (hnode : x.node.literal? = some (value, verbatim)) (hf : renderLiteral value verbatim = .ok f) :
    P f := by
  cases verbatim with
  | false => exact kept.literal value f hf
  | true =>
      obtain ⟨g, hg, rfl⟩ := h.stored value hnode
      rw [renderLiteral_store] at hf
      cases hf
      exact h.rendered _ hg

/-- The element that is rendered of a tree has the property that the tree carries. -/
theorem Carries.of_renderElement (kept : Kept P) (h : Carries P x) {value : Value} {verbatim : Bool}
    (hnode : x.node.literal? = some (value, verbatim)) (hf : renderElement value verbatim = .ok f) :
    P f := by
  cases verbatim with
  | false => exact kept.element value f hf
  | true =>
      have hliteral : renderElement value true = renderLiteral value true := by cases value <;> rfl
      rw [hliteral] at hf
      exact h.of_renderLiteral kept hnode hf

/-! ### The rules -/

/-- A validated name carries the property. -/
theorem carries_identifier (ho : o.Over P) {name : String} (h : o.identifier name = .ok r) :
    Carries P r := by
  rcases identifier_eq_ok h with ⟨feature, -, rfl⟩ | ⟨shape, -, hget, hcases⟩
  · exact ⟨fun f h => (by cases h), fun value h => (by cases h), fun shape h => (by cases h)⟩
  · have hshape : ∀ text ∈ shape.texts, P (.text text) := fun text htext =>
      ho.schema text (Schema.texts_subset_of_get? hget htext)
    rcases hcases with ⟨f, hsplice, hfold⟩ | ⟨-, rfl⟩
    · exact carries_fold ho (splice_has ho hshape hsplice) hfold
    · exact carries_declared rfl hshape

/-- An operator in front of an operand carries the property. -/
theorem carries_unary (kept : Kept P) (ho : o.Over P) {op : UnaryOp} (hx : Carries P x)
    (h : o.unary op x = .ok r) : Carries P r := by
  rcases unary_eq_ok h with ⟨f, hf, hfold⟩ | ⟨-, rfl⟩
  · rw [ho.domain] at hfold
    exact carries_fold ho (kept.unary op f (hx.rendered f hf)) hfold
  · exact carries_shapeless rfl

/-- An operator between operands carries the property. -/
theorem carries_binary (kept : Kept P) (ho : o.Over P) {op : BinaryOp} (hx : Carries P x)
    (hy : Carries P y) (h : o.binary op x y = .ok r) : Carries P r := by
  rcases binary_eq_ok h with ⟨f, g, result, hf, hg, hresult, hfold⟩ | ⟨-, rfl⟩
  · rw [ho.domain] at hresult
    exact carries_fold ho (kept.binary op f g result hresult (hx.rendered f hf) (hy.rendered g hg)) hfold
  · exact carries_shapeless rfl

/-- A chain carries the property. -/
theorem carries_logical (kept : Kept P) (ho : o.Over P) {op : LogicalOp} (hxs : ∀ x ∈ xs, Carries P x)
    (h : o.logical op xs = .ok r) : Carries P r := by
  have hremaining : ∀ x ∈ o.remaining xs, Carries P x := fun x hx => hxs x (List.mem_of_mem_filter hx)
  cases logical_eq_ok h with
  | folded constant fold =>
      rw [ho.domain] at fold
      exact carries_fold ho (kept.logical op _ (constants_have hxs)) fold
  | decided mem decisive => exact hxs r mem
  | neutral undecided absorbed literal => exact carries_literal kept ho literal
  | single undecided remaining => exact hremaining r (by rw [remaining]; exact List.mem_cons_self)
  | rendered undecided two literals fold =>
      rw [ho.domain] at fold
      exact carries_fold ho (kept.logical op _ (constants_have hremaining)) fold
  | merged nodes undecided two notLiterals merge => exact carries_shapeless rfl

/-- An array carries the property. -/
theorem carries_array (kept : Kept P) (ho : o.Over P) {w : Weight} (hxs : ∀ x ∈ xs, Carries P x)
    (h : o.array w xs = .ok r) : Carries P r := by
  rcases array_eq_ok h with ⟨-, hliteral⟩ | ⟨values, -, hvalues, hfold⟩ | ⟨-, rfl⟩
  · exact carries_literal kept ho hliteral
  · rw [ho.domain] at hfold
    refine carries_fold ho (kept.array values fun f hf => ?_) hfold
    obtain ⟨node, hnode, helement⟩ := exists_of_mem_forall₂ (mapM_eq_ok_iff.mp hvalues) hf
    obtain ⟨x, hx, rfl⟩ := List.mem_map.mp hnode
    unfold Optimizer.element at helement
    split at helement
    · rename_i value verbatim hliteral
      rw [ho.domain] at helement
      exact (hxs x hx).of_renderElement kept hliteral helement
    · cases helement
  · exact carries_shapeless rfl

/-- A conditional carries the property. -/
theorem carries_conditional (kept : Kept P) (ho : o.Over P) (hx : Carries P x) (hy : Carries P y)
    (hz : Carries P z) (h : o.conditional x y z = .ok r) : Carries P r := by
  rcases conditional_eq_ok h with ⟨value, -, rfl⟩ | ⟨t, f, g, -, ht, hf, hg, hfold⟩ | ⟨-, -, rfl⟩
  · split
    · exact hy
    · exact hz
  · rw [ho.domain] at hfold
    exact carries_fold ho
      (kept.conditional t f g (hx.rendered t ht) (hy.rendered f hf) (hz.rendered g hg)) hfold
  · exact carries_shapeless rfl

/-- A sequence carries the property. -/
theorem carries_sequence (kept : Kept P) (ho : o.Over P) (hxs : ∀ x ∈ xs, Carries P x)
    (h : o.sequence xs = .ok r) : Carries P r := by
  rcases sequence_eq_ok h with ⟨-, hliteral⟩ | ⟨hlast, -⟩ | ⟨last, hlast, -, rfl⟩
  · exact carries_literal kept ho hliteral
  · exact hxs r (List.mem_of_getLast? hlast)
  · exact carries_computed rfl (hxs last (List.mem_of_getLast? hlast)).shape

/-- A classifier folds to its membership test. -/
theorem carries_call (ho : o.Over P) {w : Weight} {feature : StaticFeature Fragment}
    (known : o.callee? x = some feature) (h : o.call w feature x xs = .ok r) : Carries P r := by
  obtain ⟨name, -, hfeature⟩ := callee?_eq_some known
  obtain ⟨classifier, hmembership, rfl⟩ := ho.features (name, feature) (Members.mem_of_find? hfeature)
  obtain ⟨description, hdescription, hcases⟩ := call_eq_ok h
  have hvalue : description.value? = some (.text classifier.membership) := by
    change classifier.describe (some (.text classifier.membership)) _ = .ok description at hdescription
    unfold Classifier.describe at hdescription
    split at hdescription
    · cases hdescription
      rfl
    · cases hdescription
  rw [hvalue] at hcases
  rcases hcases with ⟨f, hf, hfold⟩ | ⟨hnone, -⟩
  · cases hf
    exact carries_fold ho hmembership hfold
  · cases hnone

/-- A member access carries the property. -/
theorem carries_member (kept : Kept P) (ho : o.Over P) {w : Weight} {path : Path} (hx : Carries P x)
    (h : o.member w x path = .ok r) : Carries P r := by
  rcases member_eq_ok h with ⟨value, found, -, -, hliteral⟩ |
    ⟨shape, found, -, hshape, hlookup, hcases⟩ | ⟨-, -, -, rfl⟩
  · exact carries_literal kept ho hliteral
  · have hfound : ∀ text ∈ found.texts, P (.text text) := fun text htext =>
      hx.shape shape hshape text (Shape.texts_subset_of_lookup? hlookup htext)
    rcases hcases with ⟨f, hsplice, hfold⟩ | ⟨-, rfl⟩
    · exact carries_fold ho (splice_has ho hfound hsplice) hfold
    · exact carries_declared rfl hfound
  · exact carries_shapeless rfl

/-- One node: what its rule makes of trees that carry a property carries it too. -/
theorem Kept.rule (kept : Kept P) (ho : o.Over P) {node : Node} (bare : node.Bare)
    (hxs : ∀ x ∈ xs, Carries P x) (h : o.Rule node xs (.ok r)) : Carries P r := by
  generalize hresult : Except.ok r = result at h
  cases h with
  | @literal w value verbatim =>
      obtain rfl : verbatim = false := bare.2 value verbatim rfl
      exact carries_literal kept ho hresult.symm
  | identifier => exact carries_identifier ho hresult.symm
  | unary => exact carries_unary kept ho (List.forall_mem_singleton.mp hxs) hresult.symm
  | binary =>
      obtain ⟨hx, hrest⟩ := List.forall_mem_cons.mp hxs
      exact carries_binary kept ho hx (List.forall_mem_singleton.mp hrest) hresult.symm
  | logical => exact carries_logical kept ho hxs hresult.symm
  | array => exact carries_array kept ho hxs hresult.symm
  | conditional =>
      obtain ⟨hx, hrest⟩ := List.forall_mem_cons.mp hxs
      obtain ⟨hy, hrest⟩ := List.forall_mem_cons.mp hrest
      exact carries_conditional kept ho hx hy (List.forall_mem_singleton.mp hrest) hresult.symm
  | sequence => exact carries_sequence kept ho hxs hresult.symm
  | notCallable unknown => cases hresult
  | call known => exact carries_call ho known hresult.symm
  | member => exact carries_member kept ho (List.forall_mem_singleton.mp hxs) hresult.symm

/-! ### Whole trees -/

/-- Classifiers do not compile their arguments. -/
theorem Compiler.Over.uncompiled (ho : o.Over P) : o.Uncompiled := by
  intro name feature known
  obtain ⟨classifier, -, rfl⟩ := ho.features (name, feature) (Members.mem_of_find? known)
  rfl

/-- What a tree without marks is validated to carries the property. The induction is from the direct
subtrees to the tree. -/
theorem Kept.reduceAt (kept : Kept P) (ho : o.Over P) {level : Nat} {node : Node}
    (unmarked : node.Unmarked) (h : o.reduceAt level node = .ok r) : Carries P r := by
  induction node using Node.induction_children generalizing level r with
  | step node ih =>
      obtain ⟨xs, found, hrule⟩ := exists_rule_of_reduceAt h
      refine kept.rule ho (unmarked node .root) (fun x hx => ?_) hrule
      obtain ⟨visit, mem, hvisit⟩ := exists_of_mem_forall₂ found hx
      cases visit with
      | validated child =>
          have hchild := mem_children_of_visits mem
          exact ih child hchild (fun part hpart => unmarked part (.child hchild hpart)) hvisit
      | compiled compile argument => exact absurd mem ho.uncompiled.not_mem_visits

/-- What a tree without marks compiles to is the text of a fragment that has the property. -/
theorem Kept.exists_compileToSql (kept : Kept P) (ho : o.Over P) {ast : Node}
    (unmarked : ast.Unmarked) {sql : String} (h : compileToSql o ast = .ok sql) :
    ∃ f, P f ∧ f.toSql = sql := by
  obtain ⟨r, hr, htext⟩ := compileToSql_eq_ok_iff.mp h
  unfold literalText at htext
  split at htext
  · rename_i value verbatim hliteral
    obtain ⟨f, hf, rfl⟩ := map_eq_ok_iff.mp htext
    exact ⟨f, (kept.reduceAt ho unmarked hr).of_renderLiteral kept hliteral hf, rfl⟩
  · cases htext

end RuleLang.Sql
