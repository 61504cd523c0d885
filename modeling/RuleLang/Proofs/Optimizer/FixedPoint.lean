import RuleLang.Proofs.Engine.Registration
import RuleLang.Proofs.Optimizer.Levels
import RuleLang.Sample

/-!
# Validated trees are fixed points

A validated tree validates to itself: to the same tree, weights and verbatim flags included, and
with the same knowledge of its type, weight and origin. A rule that rewrites a node therefore leaves
nothing for another pass over the result.

* `Optimizer.Settled.reduceAt`: a settled tree within its levels is a fixed point.
* `Optimizer.reduceAt_of_reduceAt_succ`: a part that takes the place of its node has nothing left to do there.
* `Optimizer.compile_of_compile`: what compilation answers with compiles to itself.
* `Sql.compileToSql_verbatim`: the compiler of SQL gives a verbatim text back as it is.
-/

namespace RuleLang

namespace Optimizer

variable {V : Type} {o : Optimizer V}

/-! ### Rules that have nothing left to do -/

/-- A constant is validated to itself. -/
theorem IsConstant.reduceAt {r : Reduced V} {level : Nat} (h : o.IsConstant r)
    (hlevel : level ≤ o.config.maxDepth) : o.reduceAt level r.node = .ok r := by
  obtain ⟨value, verbatim, rendered, hrendered, rfl⟩ := h
  exact reduceAt_literal_iff.mpr ⟨hlevel, literal_eq_ok_iff.mpr ⟨rendered, hrendered, rfl⟩⟩

/-- A constant that decides a chain is one that absorption takes away. -/
theorem isAbsorbed_of_isDecisive {op : LogicalOp} {x : Reduced V} (h : o.isDecisive op x) :
    o.isAbsorbed x := by
  unfold isDecisive at h
  unfold isAbsorbed
  cases hconstant : x.node.constant? with
  | none => simp [hconstant] at h
  | some value => simp_all

/-- A chain of parts that are not all literals stays as it is. -/
theorem logical_of_isPart {op : LogicalOp} {xs : List (Reduced V)} (two : 2 ≤ xs.length)
    (notLiterals : ¬ ∀ x ∈ xs, x.node.isLiteral) (parts : ∀ x ∈ xs, o.IsPart op x) :
    o.logical op xs = .ok ⟨.logical (Weight.sum (xs.map fun x => x.node.weight) + 1) op
        (xs.map Reduced.node),
      .ofComputed (.one "boolean") (Weight.sum (xs.map fun x => x.node.weight) + 1) none⟩ := by
  have notConstants : ¬ (xs.all fun x => x.node.constant?.isSome) := by
    rw [List.all_eq_true]
    intro h
    exact notLiterals fun x hx => Node.isLiteral_of_constant? (h x hx)
  have undecided : xs.find? (o.isDecisive op) = none := by
    rw [List.find?_eq_none]
    intro x hx h
    exact (parts x hx).unabsorbed (isAbsorbed_of_isDecisive h)
  have unabsorbed : (xs.filter fun x => !o.isAbsorbed x) = xs := by
    rw [List.filter_eq_self]
    intro x hx
    simpa using (parts x hx).unabsorbed
  have flat : (xs.flatMap fun x => o.flatten op x.node) = xs.map Reduced.node := by
    rw [List.map_eq_flatMap]
    refine List.flatMap_congr fun x hx => flatten_of_not ?_
    intro h
    exact (parts x hx).flat h.1 h.2
  unfold logical
  rw [if_neg notConstants, undecided]
  dsimp only
  rw [unabsorbed]
  split
  · simp at two
  · simp at two
  · rw [if_neg (by rwa [List.all_eq_true]), flat, List.map_map]
    rfl

/-- An array of settled elements that are not all literals stays as it is. -/
theorem array_of_not_literals {weight : Weight} {xs : List (Reduced V)}
    (notLiterals : ¬ ∀ x ∈ xs, x.node.isLiteral) :
    o.array weight xs = .ok ⟨.array (totalWeight xs + 1) (xs.map Reduced.node),
      .ofComputed (.one "array") (totalWeight xs + 1) none⟩ := by
  unfold array
  rw [if_neg, if_neg]
  · simpa using notLiterals
  · rw [List.all_map, List.all_eq_true]
    intro h
    exact notLiterals fun x hx => Node.isLiteral_of_constant? (h x hx)

/-- A conditional whose test is no constant and whose parts are not all constants stays as it is. -/
theorem conditional_of_unknown {x y z : Reduced V} (unselected : x.node.constant? = none)
    (unknown : x.result.literal? = none ∨ y.result.literal? = none ∨ z.result.literal? = none) :
    o.conditional x y z =
      .ok ⟨.conditional (x.result.weight + Weight.max y.result.weight z.result.weight + 1)
          x.node y.node z.node,
        .ofComputed (.union [y.result.estimate, z.result.estimate])
          (x.result.weight + Weight.max y.result.weight z.result.weight + 1) none⟩ := by
  unfold conditional
  rw [unselected]
  dsimp only
  split
  · rename_i t c a ht hc ha
    simp [ht, hc, ha] at unknown
  · rfl

/-- An operator between operands that are not both constants stays as it is. -/
theorem binary_of_unknown {op : BinaryOp} {x y : Reduced V}
    (unknown : x.result.literal? = none ∨ y.result.literal? = none) :
    o.binary op x y = .ok ⟨.binary (x.result.weight + y.result.weight + 1) op x.node y.node,
      .ofComputed (.union [x.result.estimate, y.result.estimate])
        (x.result.weight + y.result.weight + 1) none⟩ := by
  unfold binary
  dsimp only
  split
  · rename_i a b ha hb
    simp [ha, hb] at unknown
  · rfl

/-! ### Settled trees -/

/-- Trees that each validate to themselves do so one after the other. -/
theorem forall₂_reduceAt {level : Nat} {xs : List (Reduced V)}
    (h : ∀ x ∈ xs, o.reduceAt level x.node = .ok x) :
    List.Forall₂ (fun n x => o.reduceAt level n = .ok x) (xs.map Reduced.node) xs := by
  rw [List.forall₂_map_left_iff, List.forall₂_same]
  exact h

/-- The compilers of arguments give a verbatim text back as it is. -/
def CompilersFaithful (o : Optimizer V) : Prop :=
  ∀ name feature compile, o.feature? name = some feature → feature.argumentCompiler? = some compile →
    ∀ text, compile (.ofValue (.string text) true) = .ok text

/-- A tree within a list of trees fits where the list does. -/
theorem fits_of_mem {level : Nat} {xs : List (Reduced V)} {x : Reduced V}
    (h : level + (1 + Node.deepest (xs.map Reduced.node)) ≤ o.config.maxDepth + 1) (hx : x ∈ xs) :
    o.Fits (level + 1) x.node := by
  have hdeepest := Node.depth_le_deepest (List.mem_map_of_mem (f := Reduced.node) hx)
  unfold Fits
  omega

/-- A settled tree within its levels is a fixed point of validation. -/
theorem Settled.reduceAt {r : Reduced V} {level : Nat} (h : o.Settled r)
    (faithful : o.CompilersFaithful)
    (fits : o.Fits level r.node) : o.reduceAt level r.node = .ok r := by
  induction h generalizing level with
  | constant constant =>
      refine constant.reduceAt ?_
      obtain ⟨value, verbatim, rendered, -, rfl⟩ := constant
      simpa [Fits, Node.ofValue, Node.depth] using fits
  | feature known =>
      simp only [Fits, Node.depth] at fits
      refine reduceAt_identifier_iff.mpr ⟨by omega, ?_⟩
      simp only [identifier, known]
  | entry free declared unspliced =>
      simp only [Fits, Node.depth] at fits
      refine reduceAt_identifier_iff.mpr ⟨by omega, ?_⟩
      simp only [identifier, free, declared, unspliced]
  | @unary op x settled unknown ih =>
      simp only [Fits, Node.depth] at fits ih
      refine reduceAt_unary_iff.mpr ⟨by omega, x, ih (by omega), ?_⟩
      simp only [Optimizer.unary, unknown]
  | @binary op x y left right unknown ihLeft ihRight =>
      simp only [Fits, Node.depth] at fits ihLeft ihRight
      exact reduceAt_binary_iff.mpr ⟨by omega, x, ihLeft (by omega), y, ihRight (by omega),
        binary_of_unknown unknown⟩
  | @logical op xs settled two notLiterals unabsorbed flat ih =>
      simp only [Fits, Node.depth] at fits
      have hxs := forall₂_reduceAt fun x hx => ih x hx (fits_of_mem fits hx)
      refine reduceAt_logical_iff.mpr ⟨by omega, xs, hxs, ?_⟩
      refine logical_of_isPart two notLiterals ?_
      intro x hx
      exact ⟨settled x hx, unabsorbed x hx, fun hflattening => flat hflattening x hx⟩
  | @array xs settled notLiterals ih =>
      simp only [Fits, Node.depth] at fits
      have hxs := forall₂_reduceAt fun x hx => ih x hx (fits_of_mem fits hx)
      exact reduceAt_array_iff.mpr ⟨by omega, xs, hxs, array_of_not_literals notLiterals⟩
  | @conditional x y z test consequent alternate unselected unknown ihTest ihConsequent ihAlternate =>
      simp only [Fits, Node.depth] at fits ihTest ihConsequent ihAlternate
      exact reduceAt_conditional_iff.mpr ⟨by omega, x, ihTest (by omega), y, ihConsequent (by omega),
        z, ihAlternate (by omega), conditional_of_unknown unselected unknown⟩
  | @sequence xs last settled ends unknown ih =>
      simp only [Fits, Node.depth] at fits
      have hxs := forall₂_reduceAt fun x hx => ih x hx (fits_of_mem fits hx)
      refine reduceAt_sequence_iff.mpr ⟨by omega, xs, hxs, ?_⟩
      simp only [Optimizer.sequence, ends, unknown]
  | @call name feature xs description known settled compiled described unknown ih =>
      simp only [Fits, Node.depth] at fits
      have hcallee : o.reduceAt (level + 1) (.identifier 1 name) =
          .ok ⟨.identifier 1 name, ⟨.one "function", 1, .feature name⟩⟩ := by
        refine reduceAt_identifier_iff.mpr ⟨by omega, ?_⟩
        simp only [identifier, known]
      have hxs : List.Forall₂ (o.ArgumentReduces feature (level + 1)) (xs.map Reduced.node) xs := by
        rw [List.forall₂_map_left_iff, List.forall₂_same]
        intro x hx
        have hdeepest := Node.depth_le_deepest (List.mem_map_of_mem (f := Reduced.node) hx)
        have hreduce : o.reduceAt (level + 1) x.node = .ok x := ih x hx (by unfold Fits; omega)
        unfold ArgumentReduces
        split
        · rename_i compile hcompile
          obtain ⟨text, htext⟩ := compiled (by simp [hcompile]) x hx
          rw [htext, Node.ofValue, reduceAt_literal_iff] at hreduce
          rw [htext]
          exact compiledArgument_eq_ok_iff.mpr
            ⟨text, faithful name feature compile known hcompile text, hreduce⟩
        · exact hreduce
      refine reduceAt_call_iff.mpr ⟨by omega, _, hcallee, feature, known, xs, hxs, ?_⟩
      simp only [Optimizer.call, described, unknown]
  | @declaredMember x path shape found settled unknown declared leads unspliced ih =>
      simp only [Fits, Node.depth] at fits ih
      refine reduceAt_member_iff.mpr ⟨by omega, x, ih (by omega), ?_⟩
      unfold Reduction.shape? at declared
      simp only [member, unknown]
      split at declared
      · rename_i horigin
        cases declared
        simp only [horigin, Optimizer.declaredMember, leads, unspliced]
      · rename_i horigin
        simp only [horigin, declared, Optimizer.declaredMember, leads, unspliced]
      · cases declared
  | @openMember x path settled unknown undeclared value ih =>
      simp only [Fits, Node.depth] at fits ih
      refine reduceAt_member_iff.mpr ⟨by omega, x, ih (by omega), ?_⟩
      unfold Reduction.shape? at undeclared
      simp only [member, unknown]
      split
      · rename_i horigin
        simp [horigin] at undeclared
      · rename_i horigin
        simp [horigin] at undeclared
      · rename_i name horigin
        exact absurd horigin (value name)
      · rfl

/-- What a part is validated to, it is validated to again in the place of the node around it. -/
theorem reduceAt_of_reduceAt_succ (faithful : o.CompilersFaithful) {level : Nat} {part : Node}
    {r : Reduced V} (h : o.reduceAt (level + 1) part = .ok r) : o.reduceAt level r.node = .ok r :=
  (settled_of_reduceAt h).reduceAt faithful (fits_of_reduceAt h).of_succ

end Optimizer

/-! ### Compilers of arguments -/

/-- The compiler of SQL gives a verbatim text back as it is. -/
theorem Sql.compileToSql_verbatim {compiler : Sql.Compiler} (h : compiler.domain = Sql.domain)
    (text : String) : Sql.compileToSql compiler (.ofValue (.string text) true) = .ok text := by
  have hconstant : compiler.IsConstant
      ⟨.ofValue (.string text) true, .ofLiteral (.one "string") (.text text)⟩ :=
    ⟨.string text, true, .text text, by rw [h]; rfl, rfl⟩
  have hcompile := hconstant.reduceAt (Nat.zero_le _)
  unfold Sql.compileToSql
  rw [Optimizer.validate, Optimizer.compile, hcompile]
  rfl

/-- A feature whose compiler of arguments, if there is one, gives a verbatim text back as it is. -/
def Feature.CompilesFaithfully {ω : Type} (feature : Feature ω) : Prop :=
  ∀ compile, feature.argumentCompiler? = some compile →
    ∀ text, compile (.ofValue (.string text) true) = .ok text

/-- An engine validates with the compilers of the features that it evaluates with. -/
theorem Engine.Coherent.compilersFaithful {ω : Type} {engine : Engine ω} (h : engine.Coherent)
    (faithful : engine.EveryFeature Feature.CompilesFaithfully) :
      engine.optimizer.CompilersFaithful := by
  intro name static compile known hcompile text
  obtain ⟨feature, hfeature, rfl⟩ := h.exists_feature known
  exact faithful name feature hfeature compile hcompile text

/-- The transaction features compile their arguments to SQL or not at all. -/
theorem Engine.EveryFeature.withTransactionFeatures {ω : Type} {engine : Engine ω}
    (h : engine.EveryFeature Feature.CompilesFaithfully) {compiler : Sql.Compiler}
    (hcompiler : compiler.domain = Sql.domain) (runner : QueryRunner ω) :
    (engine.withTransactionFeatures compiler runner).EveryFeature Feature.CompilesFaithfully := by
  refine h.addTransactionFeatures (fun classifier compile h => by cases h) ?_
  intro aggregate compile hcompile text
  cases hcompile
  exact Sql.compileToSql_verbatim hcompiler text

/-! ### The second pass -/

/-- What compilation answers with compiles to itself: to the same tree with the same estimate,
weight and origin. -/
theorem Optimizer.compile_of_compile {V : Type} {o : Optimizer V} (faithful : o.CompilersFaithful)
    {ast : Node} {r : Reduced V} (h : o.compile ast = .ok r) : o.compile r.node = .ok r :=
  (settled_of_reduceAt h).reduceAt faithful (fits_of_reduceAt h)

/-- A rule that counts the past transactions from the country under review. -/
def Sample.repeatedCountry : Node :=
  .conditional 0 (.logical 0 .and [callOf "isCredit" [], .ofValue (.bool true) false])
    (callOf "count" [.binary 0 .eq (memberOf "past" "country") (memberOf "trx" "country"),
      .identifier 0 "lastMonth"])
    (.identifier 0 "prohibitedCountries")

/-- The rule, whose argument is compiled to SQL, compiles to itself the second time. -/
theorem Sample.compile_of_compile_repeatedCountry : ∃ r,
    (engine (ω := Unit) statementText).optimizer.compile repeatedCountry = .ok r ∧
      (engine (ω := Unit) statementText).optimizer.compile r.node = .ok r := by
  have coherent : (engine (ω := Unit) statementText).Coherent :=
    ((Engine.Reachable.new valueSchema).withTransactionFeatures compiler statementText).coherent
  have faithful : (engine (ω := Unit) statementText).optimizer.CompilersFaithful :=
    coherent.compilersFaithful
      ((Engine.everyFeature_new valueSchema _).withTransactionFeatures rfl statementText)
  have hcompile : ∃ r, (engine (ω := Unit) statementText).optimizer.compile repeatedCountry = .ok r :=
    ⟨_, rfl⟩
  obtain ⟨r, hr⟩ := hcompile
  exact ⟨r, hr, Optimizer.compile_of_compile faithful hr⟩

end RuleLang
