import RuleLang.Feature.Classifier
import RuleLang.Proofs.Node.Texts
import RuleLang.Proofs.Schema.Texts
import RuleLang.Proofs.Sql.Compiled
import RuleLang.Proofs.Sql.Rendering
import RuleLang.Sample

/-!
# Texts never become SQL

Two trees that differ only in the contents of the texts inside their literals compile to SQL texts that
differ only in the contents of their strings: no content reaches the structure of a statement.

* `Sql.Compiler.IsPlain`: compilers with classifiers as their only features, and no quotes in columns
  and parameters.
* `Sql.Alikeness`: what two validated trees have in common that differ in texts only.
* `Sql.agree_reduceAt`: validation keeps trees alike.
* `Sql.compileToSql_of_outline_eq`: both trees fail, or the tokens of both texts are the same but for
  strings that stand for texts in the same place.
-/

namespace RuleLang

/-- A tree that is no literal has no value. -/
theorem Node.literal?_eq_none {node : Node} (h : node.isLiteral = false) :
    node.literal? = none ∧ node.constant? = none := by
  cases node with
  | literal w value verbatim => cases h
  | _ => exact ⟨rfl, rfl⟩

namespace Sql

/-- A compiler with classifiers as its only features, and no quotes in the texts of its columns and
parameters. -/
structure Compiler.IsPlain (compiler : Compiler) : Prop where
  domain : compiler.domain = Sql.domain
  schema : ∀ text ∈ compiler.schema.texts, Plain text
  features : ∀ entry ∈ compiler.features,
    ∃ classifier : Classifier, Plain classifier.column ∧ entry.2 = classifier.sqlFeature

/-! ### Alike validated trees -/

/-- Validated trees that differ in texts only, as far as any rule looks at them. Of trees that are no
literals, rules look at nothing but the origin. -/
inductive Alikeness (R : String → String → Prop) : Reduced Fragment → Reduced Fragment → Prop
  | constant {v v' : Value} {f f' : Fragment} {e e' : TypeEstimate} (value : v.Alike R v')
      (rendered : f.Alike R f') :
      Alikeness R ⟨.ofValue v false, .ofLiteral e f⟩ ⟨.ofValue v' false, .ofLiteral e' f'⟩
  | compiled {f f' : Fragment} {e e' : TypeEstimate} (rendered : f.Alike R f') :
      Alikeness R ⟨.ofValue (store f).1 true, .ofLiteral e f⟩
        ⟨.ofValue (store f').1 true, .ofLiteral e' f'⟩
  | other {r r' : Reduced Fragment} (node : r.node.isLiteral = false)
      (node' : r'.node.isLiteral = false)
      (unknown : r.result.literal? = none) (origin : r.result.origin = r'.result.origin)
      (plain : ∀ shape, r.result.shape? = some shape → ∀ text ∈ shape.texts, Plain text) :
      Alikeness R r r'

namespace Alikeness

variable {R : String → String → Prop} {r r' : Reduced Fragment}

/-- What is known of a literal depends on where the result comes from. -/
theorem literal?_eq_of_origin_eq (h : r.result.origin = r'.result.origin) :
    r.result.literal? = r'.result.literal? := by
  rw [Reduction.literal?, Reduction.literal?, h]

/-- What is known of trees that are alike is alike. -/
theorem rel_literal? (h : Alikeness R r r') :
    Option.Rel (Fragment.Alike R) r.result.literal? r'.result.literal? := by
  cases h with
  | constant _ rendered => exact .some rendered
  | compiled rendered => exact .some rendered
  | other _ _ unknown origin _ =>
      rw [← literal?_eq_of_origin_eq origin, unknown]
      exact .none

/-- The constants of trees that are alike are alike. -/
theorem rel_constant? (h : Alikeness R r r') :
    Option.Rel (Value.Alike R) r.node.constant? r'.node.constant? := by
  cases h with
  | constant value _ => exact .some value
  | compiled _ => exact .none
  | other node node' _ _ _ =>
      rw [(Node.literal?_eq_none node).2, (Node.literal?_eq_none node').2]
      exact .none

/-- Of trees that are alike both are literals or neither is. -/
theorem isLiteral_eq (h : Alikeness R r r') : r.node.isLiteral = r'.node.isLiteral := by
  cases h with
  | constant _ _ => rfl
  | compiled _ => rfl
  | other node node' _ _ _ => rw [node, node']

/-- Of trees that are alike both are constants or neither is. -/
theorem isSome_constant?_eq (h : Alikeness R r r') :
    r.node.constant?.isSome = r'.node.constant?.isSome := by
  rcases rel_cases h.rel_constant? with ⟨hr, hr'⟩ | ⟨v, v', hr, hr', _⟩
  · rw [hr, hr']
  · rw [hr, hr', Option.isSome_some, Option.isSome_some]

/-- Computations of the same shape are alike if the shape has no quotes. -/
theorem of_shape {node node' : Node} {e e' : TypeEstimate} {w w' : Weight} {shape? : Option Shape}
    (hplain : ∀ shape, shape? = some shape → ∀ text ∈ shape.texts, Plain text)
    (hnode : node.isLiteral = false) (hnode' : node'.isLiteral = false) :
    Alikeness R ⟨node, .ofComputed e w shape?⟩ ⟨node', .ofComputed e' w' shape?⟩ :=
  .other hnode hnode' rfl rfl hplain

/-- Trees of which nothing but a type is known are alike. -/
theorem of_computed {node node' : Node} {e e' : TypeEstimate} {w w' : Weight}
    (hnode : node.isLiteral = false) (hnode' : node'.isLiteral = false) :
    Alikeness R ⟨node, .ofComputed e w none⟩ ⟨node', .ofComputed e' w' none⟩ :=
  .of_shape (fun _ h => by cases h) hnode hnode'

end Alikeness

/-! ### The rules of single nodes -/

section

open Optimizer

variable {R : String → String → Prop} {o : Compiler} {x x' y y' z z' : Reduced Fragment}
  {xs ys : List (Reduced Fragment)}

/-- Literals that are alike are validated alike. -/
theorem agree_literal (ho : Compiler.IsPlain o) {v v' : Value} (h : v.Alike R v') :
    Agree (Alikeness R) (o.literal v false) (o.literal v' false) := by
  have hrendered : Agree (Fragment.Alike R) (o.domain.renderLiteral v false)
      (o.domain.renderLiteral v' false) := by
    rw [ho.domain]
    exact agree_renderLiteral h
  rw [literal, literal]
  rcases agree_iff.mp hrendered with ⟨e, e', hv, hv'⟩ | ⟨f, f', hv, hv', hf⟩
  · rw [hv, hv']
    exact .error _ _
  · rw [hv, hv']
    exact .ok (.constant h hf)

/-- Fragments that are alike fold alike. -/
theorem agree_fold (ho : Compiler.IsPlain o) {f f' : Fragment} (h : f.Alike R f') :
    Agree (Alikeness R) (o.fold f) (o.fold f') := by
  rw [fold_eq ho.domain, fold_eq ho.domain]
  exact .ok (.compiled h)

/-- What is written unchanged has no strings. -/
theorem alike_splice (ho : Compiler.IsPlain o) {shape : Shape}
    (hplain : ∀ text ∈ shape.texts, Plain text)
    {f : Fragment} (h : o.domain.splice shape = some f) : f.Alike R f := by
  rw [ho.domain] at h
  cases shape with
  | field column =>
      cases h
      exact .text (.plain (hplain column List.mem_cons_self))
  | placeholder marker =>
      cases h
      exact .text (.plain (hplain marker List.mem_cons_self))
  | scalar name => cases h
  | object members => cases h

/-- A tree with a declared shape stays alike if the shape has no quotes. -/
theorem Alikeness.of_declared {node node' : Node} {e e' : TypeEstimate} {w w' : Weight} {shape : Shape}
    (hplain : ∀ text ∈ shape.texts, Plain text) (hnode : node.isLiteral = false)
    (hnode' : node'.isLiteral = false) :
    Alikeness R ⟨node, ⟨e, w, .declared shape⟩⟩ ⟨node', ⟨e', w', .declared shape⟩⟩ := by
  refine .other hnode hnode' rfl rfl ?_
  intro found hfound
  cases hfound
  exact hplain

/-- A name is validated alike. -/
theorem agree_identifier (ho : Compiler.IsPlain o) (name : String) :
    Agree (Alikeness R) (o.identifier name) (o.identifier name) := by
  rw [identifier]
  cases o.feature? name with
  | some feature => exact .ok (.other rfl rfl rfl rfl fun _ h => by cases h)
  | none =>
      cases hshape : o.schema.get? name with
      | none => exact .error _ _
      | some shape =>
          have hplain : ∀ text ∈ shape.texts, Plain text := fun text htext =>
            ho.schema text (Schema.texts_subset_of_get? hshape htext)
          cases hsplice : o.domain.splice shape with
          | none => simp only [hsplice]; exact .ok (.of_declared hplain rfl rfl)
          | some f => simp only [hsplice]; exact agree_fold ho (alike_splice ho hplain hsplice)

/-- An operator in front of an operand is validated alike. -/
theorem agree_unary (ho : Compiler.IsPlain o) (op : UnaryOp) (h : Alikeness R x x') :
    Agree (Alikeness R) (o.unary op x) (o.unary op x') := by
  rw [Optimizer.unary, Optimizer.unary]
  rcases rel_cases h.rel_literal? with ⟨hx, hx'⟩ | ⟨f, f', hx, hx', hf⟩
  · rw [hx, hx']
    exact .ok (.of_computed rfl rfl)
  · rw [hx, hx', ho.domain]
    exact agree_fold ho (alike_unary op hf)

/-- An operator between operands is validated alike. -/
theorem agree_binaryNode (ho : Compiler.IsPlain o) (op : BinaryOp) (h : Alikeness R x x')
    (hy : Alikeness R y y') : Agree (Alikeness R) (o.binary op x y) (o.binary op x' y') := by
  rw [Optimizer.binary, Optimizer.binary]
  rcases rel_cases h.rel_literal? with ⟨hx, hx'⟩ | ⟨f, f', hx, hx', hf⟩
  · rw [hx, hx']
    exact .ok (.of_computed rfl rfl)
  · rcases rel_cases hy.rel_literal? with ⟨hy, hy'⟩ | ⟨g, g', hy, hy', hg⟩
    · rw [hx, hx', hy, hy']
      exact .ok (.of_computed rfl rfl)
    · have hvalue : Agree (Fragment.Alike R) (o.domain.binary op f g) (o.domain.binary op f' g') := by
        rw [ho.domain]
        exact agree_binary op hf hg
      rw [hx, hx', hy, hy']
      dsimp only
      rcases agree_iff.mp hvalue with ⟨e, e', hv, hv'⟩ | ⟨value, value', hv, hv', hvalue⟩
      · rw [hv, hv']
        exact .error _ _
      · rw [hv, hv']
        exact agree_fold ho hvalue

/-- The constants of operands that are alike are alike. -/
theorem alike_constants (h : List.Forall₂ (Alikeness R) xs ys) :
    List.Forall₂ (Fragment.Alike R) (constants xs) (constants ys) :=
  List.rel_filterMap (fun _ _ h => h.rel_literal?) h

/-- Of operands that are alike both are absorbed or neither is. -/
theorem isAbsorbed_eq (h : Alikeness R x x') : o.isAbsorbed x = o.isAbsorbed x' := by
  rw [isAbsorbed, isAbsorbed, h.isSome_constant?_eq]

/-- Of operands that are alike both decide a chain or neither does, as no string stands for an empty one. -/
theorem isDecisive_eq (hR : ∀ s t, R s t → s.isEmpty = t.isEmpty) (op : LogicalOp)
    (h : Alikeness R x x') :
    o.isDecisive op x = o.isDecisive op x' := by
  rw [isDecisive, isDecisive]
  rcases rel_cases h.rel_constant? with ⟨hx, hx'⟩ | ⟨v, v', hx, hx', hv⟩
  · rw [hx, hx']
  · rw [hx, hx', Option.any_some, Option.any_some, hv.isTruthy_eq hR]

/-- What absorption leaves of operands that are alike is alike. -/
theorem alike_remaining (h : List.Forall₂ (Alikeness R) xs ys) :
    List.Forall₂ (Alikeness R) (o.remaining xs) (o.remaining ys) := by
  refine List.rel_filter ?_ h
  intro a b hab
  change (!o.isAbsorbed a) = true ↔ (!o.isAbsorbed b) = true
  rw [isAbsorbed_eq hab]

/-- A chain is decided, absorbed, folded or merged on both sides alike. -/
theorem agree_logical (ho : Compiler.IsPlain o) (hR : ∀ s t, R s t → s.isEmpty = t.isEmpty)
    (op : LogicalOp) (h : List.Forall₂ (Alikeness R) xs ys) :
    Agree (Alikeness R) (o.logical op xs) (o.logical op ys) := by
  have hfolded {as bs : List (Reduced Fragment)} (h : List.Forall₂ (Alikeness R) as bs) :
      Agree (Alikeness R) (o.fold (o.domain.logical op (constants as)))
        (o.fold (o.domain.logical op (constants bs))) := by
    rw [ho.domain]
    exact agree_fold ho (alike_logical op (alike_constants h))
  rw [Optimizer.logical, Optimizer.logical, all_eq_all h fun _ _ h => h.isSome_constant?_eq]
  split
  · exact hfolded h
  · have hdecisive : Option.Rel (Alikeness R) (xs.find? (o.isDecisive op)) (ys.find? (o.isDecisive op)) :=
      rel_find? h fun _ _ h => isDecisive_eq hR op h
    rcases rel_cases hdecisive with ⟨hx, hx'⟩ | ⟨r, r', hx, hx', hr⟩
    · rw [hx, hx']
      dsimp only
      have hkept : List.Forall₂ (Alikeness R) (o.remaining xs) (o.remaining ys) := alike_remaining h
      rw [remaining, remaining] at hkept
      -- From here on only the number of remaining operands decides what the chain becomes.
      generalize (xs.filter fun x => !o.isAbsorbed x) = as at hkept ⊢
      generalize (ys.filter fun x => !o.isAbsorbed x) = bs at hkept ⊢
      cases hkept with
      | nil => exact agree_literal ho (.bool _)
      | cons head tail =>
          cases tail with
          | nil => exact .ok head
          | cons next tail =>
              have hall := List.Forall₂.cons head (.cons next tail)
              dsimp only
              rw [all_eq_all hall fun _ _ h => h.isLiteral_eq]
              split
              · exact hfolded hall
              · exact .ok (.of_computed rfl rfl)
    · rw [hx, hx']
      exact .ok hr

/-- Elements that are alike are rendered alike. -/
theorem agree_element (ho : Compiler.IsPlain o) (h : Alikeness R x x') :
    Agree (Fragment.Alike R) (o.element x.node) (o.element x'.node) := by
  cases h with
  | constant value _ =>
      change Agree _ (o.domain.renderElement _ false) (o.domain.renderElement _ false)
      rw [ho.domain]
      exact agree_renderElement value
  | @compiled f f' _ _ h =>
      change Agree _ (o.domain.renderElement _ true) (o.domain.renderElement _ true)
      rw [ho.domain]
      have hstored (f : Fragment) : domain.renderElement (store f).1 true = .ok f := by
        cases f with
        | text sql => rfl
        | list items => exact renderLiteral_store (.list items)
      rw [hstored, hstored]
      exact .ok h
  | other node node' _ _ _ =>
      rw [element, element, (Node.literal?_eq_none node).1, (Node.literal?_eq_none node').1]
      exact .error _ _

/-- Arrays of elements that are alike are validated alike. -/
theorem agree_array (ho : Compiler.IsPlain o) (h : List.Forall₂ (Alikeness R) xs ys) (w w' : Weight) :
    Agree (Alikeness R) (o.array w xs) (o.array w' ys) := by
  have hconstant : ((xs.map Reduced.node).all fun node => node.constant?.isSome) =
      (ys.map Reduced.node).all fun node => node.constant?.isSome := by
    rw [List.all_map, List.all_map]
    exact all_eq_all h fun _ _ h => h.isSome_constant?_eq
  have hliteral : (xs.map Reduced.node).all Node.isLiteral =
      (ys.map Reduced.node).all Node.isLiteral := by
    rw [List.all_map, List.all_map]
    exact all_eq_all h fun _ _ h => h.isLiteral_eq
  rw [Optimizer.array, Optimizer.array]
  dsimp only
  rw [hconstant, hliteral]
  split
  · refine agree_literal ho (.array ?_)
    rw [List.filterMap_map, List.filterMap_map]
    exact List.rel_filterMap (fun _ _ h => h.rel_constant?) h
  · split
    · have hvalues : Agree (List.Forall₂ (Fragment.Alike R)) ((xs.map Reduced.node).mapM o.element)
          ((ys.map Reduced.node).mapM o.element) := by
        refine Agree.mapM (P := fun n n' => Agree (Fragment.Alike R) (o.element n) (o.element n')) ?_
          fun _ _ h => h
        rw [List.forall₂_map_left_iff, List.forall₂_map_right_iff]
        exact h.imp fun _ _ h => agree_element ho h
      rcases agree_iff.mp hvalues with ⟨e, e', hv, hv'⟩ | ⟨fs, gs, hv, hv', hfs⟩
      · rw [hv, hv']
        exact .error _ _
      · rw [hv, hv', ho.domain]
        exact agree_fold ho (alike_array hfs)
    · exact .ok (.of_computed rfl rfl)

/-- Conditionals over parts that are alike select the same branch and are validated alike. -/
theorem agree_conditional (ho : Compiler.IsPlain o) (hR : ∀ s t, R s t → s.isEmpty = t.isEmpty)
    (hx : Alikeness R x x') (hy : Alikeness R y y') (hz : Alikeness R z z') :
    Agree (Alikeness R) (o.conditional x y z) (o.conditional x' y' z') := by
  rw [Optimizer.conditional, Optimizer.conditional]
  rcases rel_cases hx.rel_constant? with ⟨hc, hc'⟩ | ⟨v, v', hc, hc', hv⟩
  · rw [hc, hc']
    dsimp only
    rcases rel_cases hx.rel_literal? with ⟨ht, ht'⟩ | ⟨f, f', ht, ht', hf⟩
    · rw [ht, ht']
      exact .ok (.of_computed rfl rfl)
    · rcases rel_cases hy.rel_literal? with ⟨hl, hl'⟩ | ⟨g, g', hl, hl', hg⟩
      · rw [ht, ht', hl, hl']
        exact .ok (.of_computed rfl rfl)
      · rcases rel_cases hz.rel_literal? with ⟨ha, ha'⟩ | ⟨k, k', ha, ha', hk⟩
        · rw [ht, ht', hl, hl', ha, ha']
          exact .ok (.of_computed rfl rfl)
        · rw [ht, ht', hl, hl', ha, ha', ho.domain]
          exact agree_fold ho (alike_conditional hf hg hk)
  · rw [hc, hc']
    dsimp only
    rw [hv.isTruthy_eq hR]
    split
    · exact .ok hy
    · exact .ok hz

/-- Sequences of expressions that are alike are validated alike. -/
theorem agree_sequence (ho : Compiler.IsPlain o) (h : List.Forall₂ (Alikeness R) xs ys) :
    Agree (Alikeness R) (o.sequence xs) (o.sequence ys) := by
  rw [Optimizer.sequence, Optimizer.sequence]
  rcases rel_cases (rel_getLast? h) with ⟨hx, hx'⟩ | ⟨r, r', hx, hx', hr⟩
  · rw [hx, hx']
    exact agree_literal ho .undefined
  · rw [hx, hx']
    dsimp only
    rcases rel_cases hr.rel_literal? with ⟨hl, hl'⟩ | ⟨f, f', hl, hl', _⟩
    · rw [hl, hl']
      cases hr with
      | constant _ _ => cases hl
      | compiled _ => cases hl
      | other _ _ _ origin plain =>
          have hshape : r.result.shape? = r'.result.shape? := by
            rw [Reduction.shape?, Reduction.shape?, origin]
          rw [← hshape]
          exact .ok (.of_shape plain rfl rfl)
    · rw [hl, hl']
      exact .ok hr

/-- Callees that are alike name the same feature. -/
theorem callee?_eq (h : Alikeness R x x') : o.callee? x = o.callee? x' := by
  cases h with
  | constant _ _ => rfl
  | compiled _ => rfl
  | other _ _ _ origin _ => rw [callee?, callee?, origin]

/-- The features of a plain compiler are classifiers over plain columns. -/
theorem exists_classifier (ho : Compiler.IsPlain o) {feature : StaticFeature Fragment}
    (h : o.callee? x = some feature) :
    ∃ classifier : Classifier, Plain classifier.column ∧ feature = classifier.sqlFeature := by
  obtain ⟨name, _, hfeature⟩ := callee?_eq_some h
  exact ho.features (name, feature) (Members.mem_of_find? hfeature)

/-- The test of a classifier over a plain column is like itself. -/
theorem alike_membership {classifier : Classifier} (hcolumn : Plain classifier.column) :
    Sql.Alike R classifier.membership classifier.membership := by
  have htypes : List.Forall₂ (Sql.Alike R) (classifier.types.map Text.sqlQuoted)
      (classifier.types.map Text.sqlQuoted) := by
    rw [List.forall₂_map_left_iff, List.forall₂_map_right_iff, List.forall₂_same]
    intro _ _
    exact .quoted (.inl rfl)
  exact ((Alike.plain hcolumn).join (by decide) (by decide) (alike_items htypes)).follow (by decide)

/-- A classifier folds to the same text on both sides, or is given arguments on both sides. -/
theorem agree_call (ho : Compiler.IsPlain o) {classifier : Classifier}
    (hcolumn : Plain classifier.column)
    (h : List.Forall₂ (Alikeness R) xs ys) (w w' : Weight) :
    Agree (Alikeness R) (o.call w classifier.sqlFeature x xs)
      (o.call w' classifier.sqlFeature x' ys) := by
  cases h with
  | nil => exact agree_fold ho (.text (alike_membership hcolumn))
  | cons head tail => exact .error _ _

/-- A member of a plain shape is validated alike. -/
theorem agree_declaredMember (ho : Compiler.IsPlain o) {shape : Shape}
    (hplain : ∀ text ∈ shape.texts, Plain text) (node node' : Node) (path : Path) :
    Agree (Alikeness R) (o.declaredMember node x shape path)
      (o.declaredMember node' x' shape path) := by
  rw [declaredMember, declaredMember]
  cases hfound : shape.lookup? path with
  | none => exact .error _ _
  | some found =>
      have hplain : ∀ text ∈ found.texts, Plain text := fun text htext =>
        hplain text (Shape.texts_subset_of_lookup? hfound htext)
      cases hsplice : o.domain.splice found with
      | none => simp only [hsplice]; exact .ok (.of_declared hplain rfl rfl)
      | some f => simp only [hsplice]; exact agree_fold ho (alike_splice ho hplain hsplice)

/-- Member accesses to objects that are alike are validated alike. -/
theorem agree_member (ho : Compiler.IsPlain o) (h : Alikeness R x x') (w w' : Weight) (path : Path) :
    Agree (Alikeness R) (o.member w x path) (o.member w' x' path) := by
  cases h with
  | @constant v v' _ _ _ _ value _ =>
      change Agree _ (o.literalMember _ _ v false path) (o.literalMember _ _ v' false path)
      rw [literalMember, literalMember, if_neg Bool.false_ne_true, if_neg Bool.false_ne_true]
      rcases rel_cases (value.rel_getPath? path) with ⟨hv, hv'⟩ | ⟨found, found', hv, hv', hfound⟩
      · rw [hv, hv']
        exact .error _ _
      · rw [hv, hv']
        exact agree_literal ho hfound
  | compiled _ => exact .error _ _
  | other node node' _ origin plain =>
      rw [Optimizer.member, Optimizer.member, (Node.literal?_eq_none node).1,
        (Node.literal?_eq_none node').1, ← origin]
      dsimp only
      split
      · rename_i shape horigin
        exact agree_declaredMember ho (plain shape (by rw [Reduction.shape?, horigin])) _ _ path
      · rename_i shape horigin
        exact agree_declaredMember ho (plain shape (by rw [Reduction.shape?, horigin])) _ _ path
      · exact .error _ _
      · exact .ok (.of_computed rfl rfl)

/-! ### Trees -/

/-- Trees that stand at the same level are both too deep, or neither. -/
theorem agree_checkLevel {α β : Type} {P : α → β → Prop} {a b : Node} {level : Nat}
    {next : Unit → Except RuleError α} {next' : Unit → Except RuleError β}
    (h : Agree P (next ()) (next' ())) :
    Agree P (o.checkLevel a level >>= next) (o.checkLevel b level >>= next') := by
  rw [checkLevel, checkLevel]
  split
  · exact .error _ _
  · exact h

/-- Trees that are alike are validated alike if each of them is. -/
theorem agree_reduceAll {level : Nat} {as bs : List Node}
    (ih : ∀ a ∈ as, ∀ {b : Node} {level : Nat}, a.Alike R b →
      Agree (Alikeness R) (o.reduceAt level a) (o.reduceAt level b))
    (h : List.Forall₂ (Node.Alike R) as bs) :
    Agree (List.Forall₂ (Alikeness R)) (o.reduceAll level as) (o.reduceAll level bs) := by
  induction h with
  | nil => exact .ok .nil
  | cons head tail ihtail =>
      rw [List.forall_mem_cons] at ih
      rw [reduceAll, reduceAll]
      refine (ih.1 head).bind ?_
      intro r r' hr
      exact (ihtail ih.2).bind fun rs rs' hrs => .ok (.cons hr hrs)

/-- Validation keeps trees alike: it fails on both, or succeeds on both with alike outcomes. -/
theorem agree_reduceAt (ho : Compiler.IsPlain o) (hR : ∀ s t, R s t → s.isEmpty = t.isEmpty)
    {a b : Node} {level : Nat} (h : a.Alike R b) :
    Agree (Alikeness R) (o.reduceAt level a) (o.reduceAt level b) := by
  -- The second tree has the same kind of root, so the same rule applies to both at every level.
  induction a generalizing b level with
  | literal w value verbatim =>
      cases h with
      | literal h =>
          rw [reduceAt, reduceAt]
          exact agree_checkLevel (agree_literal ho h)
  | identifier w name =>
      cases h with
      | identifier _ =>
          rw [reduceAt, reduceAt]
          exact agree_checkLevel (agree_identifier ho name)
  | unary w op operand ih =>
      cases h with
      | unary _ h =>
          rw [reduceAt, reduceAt]
          refine agree_checkLevel ?_
          exact (ih h).bind fun _ _ hx => agree_unary ho op hx
  | binary w op left right ihl ihr =>
      cases h with
      | binary _ hl hr =>
          rw [reduceAt, reduceAt]
          refine agree_checkLevel ?_
          refine (ihl hl).bind ?_
          intro _ _ hx
          exact (ihr hr).bind fun _ _ hy => agree_binaryNode ho op hx hy
  | logical w op operands ih =>
      cases h with
      | logical _ h =>
          rw [reduceAt, reduceAt]
          refine agree_checkLevel ?_
          exact (agree_reduceAll ih h).bind fun _ _ hxs => agree_logical ho hR op hxs
  | array w elements ih =>
      cases h with
      | array h =>
          rw [reduceAt, reduceAt]
          refine agree_checkLevel ?_
          exact (agree_reduceAll ih h).bind fun _ _ hxs => agree_array ho hxs _ _
  | conditional w test consequent alternate iht ihc iha =>
      cases h with
      | conditional ht hc ha =>
          rw [reduceAt, reduceAt]
          refine agree_checkLevel ?_
          refine (iht ht).bind ?_
          intro _ _ hx
          refine (ihc hc).bind ?_
          intro _ _ hy
          exact (iha ha).bind fun _ _ hz => agree_conditional ho hR hx hy hz
  | sequence w expressions ih =>
      cases h with
      | sequence h =>
          rw [reduceAt, reduceAt]
          refine agree_checkLevel ?_
          exact (agree_reduceAll ih h).bind fun _ _ hxs => agree_sequence ho hxs
  | member w object path ih =>
      cases h with
      | member h _ =>
          rw [reduceAt, reduceAt]
          refine agree_checkLevel ?_
          exact (ih h).bind fun _ _ hx => agree_member ho hx _ _ path
  | call w callee arguments ihc ih =>
      cases h with
      | call hc ha =>
          rw [reduceAt, reduceAt]
          refine agree_checkLevel ?_
          refine (ihc hc).bind ?_
          intro x x' hx
          rw [← callee?_eq hx]
          cases hcallee : o.callee? x with
          | none => exact .error _ _
          | some feature =>
              obtain ⟨classifier, hcolumn, rfl⟩ := exists_classifier ho hcallee
              exact (agree_reduceAll ih ha).bind fun _ _ hxs => agree_call ho hcolumn hxs _ _

/-- The texts of trees that are alike are alike. -/
theorem agree_literalText {r r' : Reduced Fragment} (h : Alikeness R r r') :
    Agree (Sql.Alike R) (literalText r.node) (literalText r'.node) := by
  cases h with
  | constant value _ => exact (agree_renderLiteral value).map fun _ _ h => h.toSql
  | @compiled f f' _ _ h =>
      have hstored (f : Fragment) : literalText (.ofValue (store f).1 true) = .ok f.toSql := by
        cases f with
        | text sql => rfl
        | list items => exact congrArg (·.map Fragment.toSql) (renderLiteral_store (.list items))
      rw [hstored, hstored]
      exact .ok h.toSql
  | other node node' _ _ _ =>
      rw [literalText, literalText, (Node.literal?_eq_none node).1, (Node.literal?_eq_none node').1]
      exact .error _ _

/-- Alike trees compile to alike texts, or both fail. -/
theorem agree_compileToSql (ho : Compiler.IsPlain o) (hR : ∀ s t, R s t → s.isEmpty = t.isEmpty)
    {a b : Node} (h : a.Alike R b) : Agree (Sql.Alike R) (compileToSql o a) (compileToSql o b) := by
  have hvalid : Agree (fun n n' => ∃ r r', Alikeness R r r' ∧ n = r.node ∧ n' = r'.node)
      (o.validate a) (o.validate b) :=
    (agree_reduceAt ho hR h).map fun r r' hr => ⟨r, r', hr, rfl, rfl⟩
  rw [compileToSql, compileToSql]
  refine hvalid.bind ?_
  rintro _ _ ⟨r, r', hr, rfl, rfl⟩
  exact agree_literalText hr

end

/-! ### Texts as tokens -/

/-- A compiler with the classifiers is plain if its schema is. -/
theorem isPlain_withClassifiers {schema : Schema} (h : ∀ text ∈ schema.texts, Plain text) :
    Compiler.IsPlain (withClassifiers (newCompiler schema)) where
  domain := rfl
  schema := h
  features := by
    intro entry hentry
    rcases Members.mem_insert hentry with rfl | hentry
    · exact ⟨.debit, by decide, rfl⟩
    · rcases Members.mem_insert hentry with rfl | hentry
      · exact ⟨.credit, by decide, rfl⟩
      · exact absurd hentry List.not_mem_nil

/-- **Texts never become SQL.** Take a tree that was read and one that differs from it only in the
contents of the texts inside its literals, which are empty in the same places. Both fail to compile, or
both compile and the tokens of the two texts are the same, except for strings that stand for texts in
the same place. -/
theorem compileToSql_of_outline_eq {compiler : Compiler} (hplain : compiler.IsPlain) {json : Json}
    {a b : Node} (ha : Node.ofJson? json = some a) (houtline : a.outline = b.outline)
    (hempty : ∀ pair ∈ a.strings.zip b.strings, pair.1 = "" ↔ pair.2 = "") :
    (∃ e e', compileToSql compiler a = .error e ∧ compileToSql compiler b = .error e') ∨
      ∃ x y ts us, compileToSql compiler a = .ok x ∧ compileToSql compiler b = .ok y ∧
        tokens? x = some ts ∧ tokens? y = some us ∧
        List.Forall₂ (Token.Similar fun s t => (s, t) ∈ a.strings.zip b.strings) ts us := by
  have hR : ∀ s t, (s, t) ∈ a.strings.zip b.strings → s.isEmpty = t.isEmpty := by
    intro s t hpair
    rw [Bool.eq_iff_iff, String.isEmpty_iff, String.isEmpty_iff]
    exact hempty (s, t) hpair
  have hstrings : List.Forall₂ (fun s t => (s, t) ∈ a.strings.zip b.strings) a.strings b.strings :=
    List.forall₂_iff_zip.mpr ⟨Node.length_strings_eq houtline, fun h => h⟩
  have halike := Node.alike_of_outline_eq (Node.transparent_of_ofJson? ha) houtline hstrings
  rcases agree_iff.mp (agree_compileToSql hplain hR halike) with herror | ⟨x, y, hx, hy, hxy⟩
  · exact .inl herror
  · obtain ⟨ts, us, hts, hus, hall⟩ := hxy.exists_tokens
    exact .inr ⟨x, y, ts, us, hx, hy, hts, hus, hall⟩

end Sql

namespace Sample

/-- A rule about past transactions from a country, as a document. -/
def countryDocument (country : String) : Json :=
  .object [("type", .string "BinaryExpression"), ("operator", .string "=="),
    ("left", .object [("type", .string "MemberExpression"),
      ("object", .object [("type", .string "Identifier"), ("name", .string "past")]),
      ("path", .array [.string "country"])]),
    ("right", .object [("type", .string "Literal"), ("value", .string country)])]

/-- The rule of `countryDocument`. -/
def countryRule (country : String) : Node :=
  .binary 0 .eq (memberOf "past" "country") (.ofValue (.string country) false)

/-- The sample compiler is plain. -/
theorem isPlain_compiler : compiler.IsPlain :=
  Sql.isPlain_withClassifiers (by decide)

/-- A text that looks like SQL stays inside its string. -/
theorem compileToSql_country : ∃ ts us,
    Sql.compileToSql compiler (countryRule "DE") = .ok "(t.country='DE')" ∧
      Sql.compileToSql compiler (countryRule "' OR (1=1") = .ok "(t.country=''' OR (1=1')" ∧
      Sql.tokens? "(t.country='DE')" = some ts ∧ Sql.tokens? "(t.country=''' OR (1=1')" = some us ∧
      List.Forall₂ (Sql.Token.Similar fun s t => (s, t) ∈ [("DE", "' OR (1=1")]) ts us := by
  have hx : Sql.compileToSql compiler (countryRule "DE") = .ok "(t.country='DE')" := by rfl
  have hy : Sql.compileToSql compiler (countryRule "' OR (1=1") =
    .ok "(t.country=''' OR (1=1')" := by rfl
  have hread : Node.ofJson? (countryDocument "DE") = some (countryRule "DE") := by rfl
  have houtline : (countryRule "DE").outline = (countryRule "' OR (1=1").outline := by rfl
  have hempty : ∀ pair ∈ (countryRule "DE").strings.zip (countryRule "' OR (1=1").strings,
      pair.1 = "" ↔ pair.2 = "" := by decide
  rcases Sql.compileToSql_of_outline_eq isPlain_compiler hread houtline hempty with
    ⟨e, _, he, _⟩ | ⟨x, y, ts, us, hx', hy', hts, hus, hall⟩
  · rw [hx] at he
    cases he
  · rw [hx, Except.ok.injEq] at hx'
    rw [hy, Except.ok.injEq] at hy'
    subst hx' hy'
    exact ⟨ts, us, hx, hy, hts, hus, hall⟩

end Sample

end RuleLang
