import RuleLang.Proofs.Engine.Failure
import RuleLang.Proofs.Evaluation.Strictness
import RuleLang.Proofs.Value.Conformance

/-!
# Paths that validation has checked

Validation follows a member path along the shape that is declared for the object, by the schema or by the
description of a call. If scopes and features keep to these shapes, evaluation finds what validation has
found: no member is ever missing.

* `Reduction.Admits`: what is known of a tree holds of a value.
* `Feature.IsHonest`: the calls of a feature answer with values of the shape that it declares.
* `Node.IsAnchor`: the objects whose shape is declared, as far as they have a value at all.
* `Engine.Coherent.answersIn_valueOf`: what is known of a validated tree holds of its value.
* `Engine.valueOf_strict_eq_lenient`: no member is missing, and strict members make no difference.
-/

namespace RuleLang

open Node (Subtree)
open RuleLang.Computation
open Optimizer (Settled)

variable {ω : Type}

/-- What is known of a tree holds of a value: it is the constant, if one is known, and it conforms to the
declared shape, if one is known. -/
structure Reduction.Admits (r : Reduction Value) (v : Value) : Prop where
  constant : ∀ value, r.literal? = some value → v = value
  shape : ∀ shape, r.shape? = some shape → shape.Conforms v

/-- A feature keeps to what it declares: where it describes a call, the call answers with values of that
shape, if the arguments are as described. -/
def Feature.IsHonest (feature : Feature ω) : Prop :=
  ∀ scope results values description, List.Forall₂ Reduction.Admits results values →
    feature.describe results = .ok description →
    (feature.call scope values).AnswersIn description.returns.Conforms

/-- A name, a member, a call, or a sequence that ends in one of these. -/
inductive Node.IsAnchor : Node → Prop
  | identifier (w : Weight) (name : String) : IsAnchor (.identifier w name)
  | member (w : Weight) (object : Node) (path : Path) : IsAnchor (.member w object path)
  | call (w : Weight) (callee : Node) (arguments : List Node) : IsAnchor (.call w callee arguments)
  | sequence {w : Weight} {expressions : List Node} {last : Node}
      (ends : expressions.getLast? = some last) (h : IsAnchor last) : IsAnchor (.sequence w expressions)

/-- The object of every member in a tree is an anchor. -/
def Node.Anchored (tree : Node) : Prop :=
  ∀ w object path, Subtree (.member w object path) tree → object.IsAnchor

/-- The parts of an anchored tree are anchored. -/
theorem Node.Anchored.of_mem_children {tree child : Node} (h : tree.Anchored)
    (hchild : child ∈ tree.children) : child.Anchored :=
  fun w object path hsite => h w object path (.child hchild hsite)

/-- A tree is anchored if it is no member, or one of an anchor, and its direct subtrees are anchored. -/
theorem Node.anchored_of_children {tree : Node}
    (h : ∀ w object path, tree = .member w object path → object.IsAnchor)
    (hchildren : ∀ child ∈ tree.children, child.Anchored) : tree.Anchored := by
  intro w object path hsite
  cases hsite with
  | root => exact h w object path rfl
  | child mem hbelow => exact hchildren _ mem w object path hbelow

namespace Engine

variable {engine : Engine ω} {scope : Scope} {x : Reduced Value} {v : Value}

/-- What is known of a tree holds of its value, and an anchor with a value has a declared shape. -/
structure Foretells (x : Reduced Value) (v : Value) : Prop where
  admits : x.result.Admits v
  declared : x.node.IsAnchor → x.result.shape?.isSome

/-- Nothing is foretold of a computation without a declared shape, if it is no anchor. -/
theorem foretells_ofComputed {node : Node} {estimate : TypeEstimate} {weight : Weight}
    (h : ¬ node.IsAnchor) : Foretells ⟨node, .ofComputed estimate weight none⟩ v := by
  refine ⟨⟨?_, ?_⟩, ?_⟩
  · intro value hvalue
    cases hvalue
  · intro shape hshape
    cases hshape
  · intro hanchor
    exact absurd hanchor h

/-- A value of the declared shape is what is foretold. -/
theorem foretells_of_shape {shape : Shape} (unknown : x.result.literal? = none)
    (declared : x.result.shape? = some shape) (h : shape.Conforms v) : Foretells x v := by
  refine ⟨⟨?_, ?_⟩, fun _ => declared ▸ rfl⟩
  · intro value hvalue
    cases unknown.symm.trans hvalue
  · intro other hother
    cases declared.symm.trans hother
    exact h

/-- A name of the schema has a value of the declared shape. -/
theorem Coherent.answersIn_entry (coherent : engine.Coherent)
    (conforms : scope.Conforms engine.optimizer.schema) {name : String} {shape : Shape}
    (free : engine.optimizer.feature? name = none)
    (declared : engine.optimizer.schema.get? name = some shape) (w : Weight) :
    (engine.evaluator.valueOf scope (.identifier w name)).AnswersIn shape.Conforms := by
  rw [coherent.feature?, Option.map_eq_none_iff] at free
  rw [Evaluator.valueOf, Evaluator.named, free]
  exact answersIn_pure (conforms name shape declared)

/-- A call of an honest feature has a value of the shape that the feature declares. -/
theorem Coherent.answersIn_call (coherent : engine.Coherent)
    (honest : engine.EveryFeature Feature.IsHonest) {name : String} {static : StaticFeature Value}
    {xs : List (Reduced Value)} {description : Description Value}
    (known : engine.optimizer.feature? name = some static)
    (described : static.describe (xs.map Reduced.result) = .ok description)
    (arguments : ∀ x ∈ xs, (engine.evaluator.valueOf scope x.node).AnswersIn x.result.Admits)
    (w u : Weight) :
    (engine.evaluator.valueOf scope (.call w (.identifier u name) (xs.map Reduced.node))).AnswersIn
      description.returns.Conforms := by
  obtain ⟨feature, registered, rfl⟩ := coherent.exists_feature known
  obtain ⟨declared, hdeclared, rfl⟩ := map_eq_ok_iff.mp described
  have hcallee : engine.evaluator.callee? (.identifier u name) = some (name, feature) := by
    simp [Evaluator.callee?, Node.identifier?, registered]
  have hparts : List.Forall₂ (fun P c => AnswersIn c P) (xs.map fun x => x.result.Admits)
      (engine.evaluator.valuesOf scope (xs.map Reduced.node)) := by
    rw [Evaluator.valuesOf_eq_map, List.map_map, List.forall₂_map_left_iff,
      List.forall₂_map_right_iff, List.forall₂_same]
    exact arguments
  rw [Evaluator.valueOf, hcallee]
  apply (Evaluator.answersIn_gather hparts).bind
  intro values hvalues
  have hadmits : List.Forall₂ Reduction.Admits (xs.map Reduced.result) values := by
    rw [List.forall₂_map_left_iff] at hvalues ⊢
    exact hvalues
  exact (honest name feature registered scope _ values declared hadmits hdeclared).mapError _

/-- A member along a declared shape is found, and has a value of the shape that is found. -/
theorem answersIn_member {e : Evaluator ω} {object : Node} {path : Path} {shape found : Shape}
    (h : (e.valueOf scope object).AnswersIn shape.Conforms) (leads : shape.lookup? path = some found)
    (w : Weight) : (e.valueOf scope (.member w object path)).AnswersIn found.Conforms := by
  rw [Evaluator.valueOf]
  apply h.bind
  intro value hvalue
  obtain ⟨member, hmember, hfound⟩ := hvalue.exists_getPath? leads
  rw [Evaluator.memberOf, hmember]
  exact answersIn_pure hfound

/-- What is known of a validated tree holds of its value. The induction is on the validated tree; shapes
enter it from the schema and from descriptions, and pass through sequences and members. -/
theorem Coherent.answersIn_valueOf (coherent : engine.Coherent)
    (honest : engine.EveryFeature Feature.IsHonest)
    (conforms : scope.Conforms engine.optimizer.schema) (settled : Settled engine.optimizer x)
    (anchored : x.node.Anchored) :
    (engine.evaluator.valueOf scope x.node).AnswersIn (Foretells x) := by
  induction settled with
  | constant constant =>
      obtain ⟨value, verbatim, rendered, hrendered, rfl⟩ := constant
      rw [coherent.domain] at hrendered
      cases hrendered
      rw [Node.ofValue, Evaluator.valueOf]
      apply answersIn_pure
      refine ⟨⟨?_, ?_⟩, ?_⟩
      · intro other hother
        exact Option.some.inj hother
      · intro shape hshape
        cases hshape
      · rintro ⟨⟩
  | feature known =>
      obtain ⟨feature, registered, -⟩ := coherent.exists_feature known
      rw [Evaluator.valueOf, Evaluator.named, registered]
      exact answersIn_fail _
  | entry free declared unspliced =>
      exact (coherent.answersIn_entry conforms free declared 1).mono
        fun v hv => foretells_of_shape rfl rfl hv
  | unary settled unknown ih => exact answersIn_of_forall fun v => foretells_ofComputed (by rintro ⟨⟩)
  | binary left right unknown ihLeft ihRight =>
      exact answersIn_of_forall fun v => foretells_ofComputed (by rintro ⟨⟩)
  | logical settled two notLiterals unabsorbed flat ih =>
      exact answersIn_of_forall fun v => foretells_ofComputed (by rintro ⟨⟩)
  | array settled notLiterals ih => exact answersIn_of_forall fun v => foretells_ofComputed (by rintro ⟨⟩)
  | conditional test consequent alternate unselected unknown ihTest ihConsequent ihAlternate =>
      exact answersIn_of_forall fun v => foretells_ofComputed (by rintro ⟨⟩)
  | @sequence xs last settled ends unknown ih =>
      have hlast : last ∈ xs := List.mem_of_getLast? ends
      have hnodes : (xs.map Reduced.node).getLast? = some last.node := by
        rw [List.getLast?_map, ends, Option.map_some]
      have hfinal : (engine.evaluator.valuesOf scope (xs.map Reduced.node)).getLast? =
          some (engine.evaluator.valueOf scope last.node) := by
        rw [Evaluator.valuesOf_eq_map, List.getLast?_map, hnodes, Option.map_some]
      have hvalue := ih last hlast (anchored.of_mem_children (List.mem_map_of_mem hlast))
      rw [Evaluator.valueOf]
      apply answersIn_inOrder hfinal
      apply hvalue.mono
      intro v hv
      refine ⟨⟨?_, hv.admits.shape⟩, ?_⟩
      · intro value hvalue
        cases hvalue
      · intro hanchor
        cases hanchor with
        | sequence hends hlastAnchor =>
            cases hnodes.symm.trans hends
            exact hv.declared hlastAnchor
  | @call name feature xs description known settled compiled described unknown ih =>
      have arguments : ∀ x ∈ xs, (engine.evaluator.valueOf scope x.node).AnswersIn x.result.Admits := by
        intro x hx
        have hmem : x.node ∈ (Node.call 0 (.identifier 1 name) (xs.map Reduced.node)).children :=
          List.mem_cons_of_mem _ (List.mem_map_of_mem hx)
        exact (ih x hx (anchored.of_mem_children hmem)).mono fun v hv => hv.admits
      exact (coherent.answersIn_call honest known described arguments _ 1).mono
        fun v hv => foretells_of_shape rfl rfl hv
  | @declaredMember x path shape found settled unknown declared leads unspliced ih =>
      have hobject : (engine.evaluator.valueOf scope x.node).AnswersIn shape.Conforms :=
        (ih (anchored.of_mem_children (List.mem_singleton_self x.node))).mono
          fun v hv => hv.admits.shape shape declared
      exact (answersIn_member hobject leads _).mono fun v hv => foretells_of_shape rfl rfl hv
  | @openMember x path settled unknown undeclared value ih =>
      -- an anchor without a declared shape has no value, and so neither has its member
      have hobject := ih (anchored.of_mem_children (List.mem_singleton_self x.node))
      rw [Evaluator.valueOf]
      apply hobject.bind
      intro v hv
      have hdeclared := hv.declared (anchored _ _ _ .root)
      rw [undeclared] at hdeclared
      cases hdeclared

/-- All members in a validated tree are found. -/
theorem findsMembers_of_validate (reachable : engine.Reachable)
    (honest : engine.EveryFeature Feature.IsHonest) {ast tree : Node}
    (validated : engine.validate ast = .ok tree) (anchored : tree.Anchored)
    (conforms : scope.Conforms engine.optimizer.schema) : engine.evaluator.FindsMembers scope tree := by
  obtain ⟨r, settled, rfl⟩ := exists_settled_of_validate validated
  intro w object path hsite
  obtain ⟨y, hy, hnode⟩ := settled.exists_of_subtree hsite
  obtain ⟨x, hx, rfl, hleads⟩ := hy.of_member hnode
  have hobject : x.node.Anchored := fun w' object' path' hinner =>
    anchored w' object' path' (hinner.trans (.child (List.mem_singleton_self x.node) .root) |>.trans hsite)
  apply (reachable.coherent.answersIn_valueOf honest conforms hx hobject).mono
  intro v hv
  obtain ⟨shape, hshape⟩ := Option.isSome_iff_exists.mp (hv.declared (anchored w x.node path hsite))
  obtain ⟨found, hfound⟩ := hleads shape hshape
  obtain ⟨member, hmember, -⟩ := (hv.admits.shape shape hshape).exists_getPath? hfound
  rw [hmember]
  rfl

/-- The same engine with a setting for missing members. -/
def withStrictMembers (engine : Engine ω) (strict : Bool) : Engine ω :=
  { engine with evaluator := engine.evaluator.withStrictMembers strict }

/-- The paths that validation has checked lead somewhere: whatever the object of a member answers with,
the member is found, so that evaluation is the same whether a missing member is an error or not. -/
theorem valueOf_strict_eq_lenient (reachable : engine.Reachable)
    (honest : engine.EveryFeature Feature.IsHonest) {ast tree : Node}
    (validated : engine.validate ast = .ok tree) (anchored : tree.Anchored)
    (conforms : scope.Conforms engine.optimizer.schema) :
    engine.evaluator.FindsMembers scope tree ∧
      (engine.withStrictMembers true).valueOf scope tree =
        (engine.withStrictMembers false).valueOf scope tree := by
  have finds := findsMembers_of_validate reachable honest validated anchored conforms
  refine ⟨finds, ?_⟩
  calc (engine.withStrictMembers true).valueOf scope tree
      = engine.valueOf scope tree := finds.valueOf_withStrictMembers true
    _ = (engine.withStrictMembers false).valueOf scope tree :=
        (finds.valueOf_withStrictMembers false).symm

end Engine

namespace Sample

/-- A feature that answers with an account of somebody from a country. -/
def account : Feature Unit where
  describe _ := .ok ⟨1, .object [("owner", .object [("country", .scalar "string")])], none⟩
  argumentCompiler? := none
  call _ _ := .pure (.object [("owner", .object [("country", .string "RU")])])

/-- An engine over the sample schema that knows of accounts. -/
def accountEngine : Engine Unit :=
  (Engine.new valueSchema).addFeature "account" account

/-- The country of the account, at the end of a sequence, against the one under review. -/
def accountCountry : Node :=
  .binary 0 .eq
    (.member 0 (.sequence 0 [numeral 1, callOf "account" []]) [.key "owner", .key "country"])
    (memberOf "trx" "country")

/-- The tree that `accountCountry` is validated to. -/
def accountCountryTree : Node :=
  .binary (.ofNat 8) .eq
    (.member (.ofNat 5)
      (.sequence (.ofNat 4) [numeral 1, .call (.ofNat 3) (.identifier 1 "account") []])
      [.key "owner", .key "country"])
    (.member (.ofNat 2) (.identifier 1 "trx") [.key "country"])

/-- The account that is described is the one that is answered with. -/
theorem isHonest_account : account.IsHonest := by
  intro scope results values description _ hdescription
  cases hdescription
  apply Computation.answersIn_pure
  simp [Shape.Conforms, Shape.MembersConform, Members.find?]

/-- The sample scope has the shapes of the sample schema. -/
theorem conforms_scope : scope.Conforms valueSchema := by
  intro name shape hshape
  have hmem := Members.mem_of_find? hshape
  simp only [valueSchema, List.mem_cons, List.not_mem_nil, or_false, Prod.mk.injEq] at hmem
  rcases hmem with ⟨rfl, rfl⟩ | ⟨rfl, rfl⟩
  · simp [Shape.Conforms]
  · simp [transactionMembers, scope, Scope.get?, Members.find?, Shape.Conforms, Shape.MembersConform]

/-- The country of the account is read from a described call. -/
theorem anchored_accountCountryTree : accountCountryTree.Anchored := by
  have leaf {node : Node} (hnone : node.children = []) : node.Anchored := by
    apply Node.anchored_of_children
    · rintro w object path rfl
      cases hnone
    · rw [hnone]
      exact List.forall_mem_nil _
  have name (w : Weight) (text : String) : (Node.identifier w text).Anchored := leaf rfl
  have call : (Node.call (.ofNat 3) (.identifier 1 "account") []).Anchored :=
    Node.anchored_of_children (by rintro w object path ⟨⟩)
      (List.forall_mem_singleton.mpr (name 1 "account"))
  have sequence : (Node.sequence (.ofNat 4)
      [numeral 1, .call (.ofNat 3) (.identifier 1 "account") []]).Anchored := by
    apply Node.anchored_of_children (by rintro w object path ⟨⟩)
    exact List.forall_mem_cons.mpr ⟨leaf rfl, List.forall_mem_singleton.mpr call⟩
  apply Node.anchored_of_children (by rintro w object path ⟨⟩)
  refine List.forall_mem_cons.mpr ⟨?_, List.forall_mem_singleton.mpr ?_⟩
  · apply Node.anchored_of_children
    · rintro w object path ⟨⟩
      exact .sequence rfl (.call _ _ _)
    · exact List.forall_mem_singleton.mpr sequence
  · apply Node.anchored_of_children
    · rintro w object path ⟨⟩
      exact .identifier 1 "trx"
    · exact List.forall_mem_singleton.mpr (name 1 "trx")

/-- The country of the account is found, so that being strict about members makes no difference. -/
theorem valueOf_accountCountryTree :
    accountEngine.validate accountCountry = .ok accountCountryTree ∧
      accountEngine.evaluator.FindsMembers scope accountCountryTree ∧
      (accountEngine.withStrictMembers true).valueOf scope accountCountryTree =
        (accountEngine.withStrictMembers false).valueOf scope accountCountryTree := by
  have reachable : accountEngine.Reachable := (Engine.Reachable.new valueSchema).addFeature _ _
  have honest : accountEngine.EveryFeature Feature.IsHonest :=
    (Engine.everyFeature_new valueSchema _).addFeature _ isHonest_account
  have validated : accountEngine.validate accountCountry = .ok accountCountryTree := rfl
  exact ⟨validated, Engine.valueOf_strict_eq_lenient reachable honest validated
    anchored_accountCountryTree conforms_scope⟩

end Sample

end RuleLang
