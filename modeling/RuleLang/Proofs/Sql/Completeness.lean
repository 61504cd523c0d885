import RuleLang.Proofs.Node.Names
import RuleLang.Proofs.Optimizer.Levels
import RuleLang.Proofs.Sql.Column
import RuleLang.Sample

/-!
# Rules that SQL can express

A rule over scalars and columns, with operators that SQL has, compiles whatever the switches of the
compiler are: no node of it is left over.

* `Value.IsScalar`, `Sql.Expressible`: the values and the rules that SQL can express.
* `Sql.Refers`: the rules that are a column or a parameter.
* `Sql.Answers`: a step of validation that succeeds with a constant.
* `Sql.answers_unary` to `Sql.answers_sequence`: every rule makes constants of constants.
* `Sql.answers_reduceAt`: rules that SQL can express are validated to constants.
* `Sql.compiles_of_expressible`: they compile to the text of a literal.
-/

namespace RuleLang

/-- Arrays and objects are no scalars. -/
def Value.IsScalar : Value → Prop
  | .array _ | .object _ => False
  | _ => True

namespace Sql

/-- The rules that are a column or a parameter of a schema: its name, or a member of a name that is
declared as an object. The text is the one that is declared. -/
inductive Refers (schema : Schema) : Node → String → Prop
  | name (w : Weight) {name text : String} {shape : Shape} (declared : schema.get? name = some shape)
      (column : shape.columnText? = some text) : Refers schema (.identifier w name) text
  | member (w wObject : Weight) {name text : String} {members : List (String × Shape)} {path : Path}
      {found : Shape} (declared : schema.get? name = some (.object members))
      (leads : (Shape.object members).lookup? path = some found)
      (column : found.columnText? = some text) :
      Refers schema (.member w (.identifier wObject name) path) text

/-- The rules that SQL can express over a schema: scalars, columns and parameters, and operators, chains,
conditionals and sequences of such rules. -/
inductive Expressible (schema : Schema) : Node → Prop
  | literal (w : Weight) {value : Value} (verbatim : Bool) (scalar : value.IsScalar) :
      Expressible schema (.literal w value verbatim)
  | column {node : Node} {text : String} (refers : Refers schema node text) : Expressible schema node
  | unary (w : Weight) (op : UnaryOp) {operand : Node} (expressible : Expressible schema operand) :
      Expressible schema (.unary w op operand)
  | binary (w : Weight) {op : BinaryOp} {left right : Node} (supported : op ≠ .shiftRightUnsigned)
      (expressibleLeft : Expressible schema left) (expressibleRight : Expressible schema right) :
      Expressible schema (.binary w op left right)
  | logical (w : Weight) (op : LogicalOp) {operands : List Node}
      (expressible : ∀ node ∈ operands, Expressible schema node) :
      Expressible schema (.logical w op operands)
  | conditional (w : Weight) {test consequent alternate : Node}
      (expressibleTest : Expressible schema test)
      (expressibleConsequent : Expressible schema consequent)
      (expressibleAlternate : Expressible schema alternate) :
      Expressible schema (.conditional w test consequent alternate)
  | sequence (w : Weight) {expressions : List Node}
      (expressible : ∀ node ∈ expressions, Expressible schema node) :
      Expressible schema (.sequence w expressions)

/-! ### Columns and parameters -/

variable {c : Compiler} {level : Nat} {node : Node} {text : String}

/-- The text of a column or a parameter is written unchanged. -/
theorem splice_of_columnText? (hdomain : c.domain = domain) {shape : Shape}
    (column : shape.columnText? = some text) : c.domain.splice shape = some (.text text) := by
  rw [hdomain]
  exact (splice_eq shape).trans (congrArg (Option.map Fragment.text) column)

/-- A name that is declared as a column is compiled to its text. -/
theorem identifier_of_columnText? (hdomain : c.domain = domain) {name : String} {shape : Shape}
    (free : c.feature? name = none) (declared : c.schema.get? name = some shape)
    (column : shape.columnText? = some text) : c.identifier name = .ok (compiled text) := by
  rw [Optimizer.identifier, free, declared]
  dsimp only
  rw [splice_of_columnText? hdomain column]
  exact fold_text hdomain

/-- A name that is declared as an object. -/
def objectName (name : String) (members : List (String × Shape)) : Reduced Fragment :=
  ⟨.identifier 1 name, ⟨.one "object", 1, .declared (.object members)⟩⟩

/-- An object stays a name, so that its members can be asked for. -/
theorem identifier_object (hdomain : c.domain = domain) {name : String}
    {members : List (String × Shape)} (free : c.feature? name = none)
    (declared : c.schema.get? name = some (.object members)) :
    c.identifier name = .ok (objectName name members) := by
  have hsplice : c.domain.splice (.object members) = none := by rw [hdomain]; rfl
  rw [Optimizer.identifier, free, declared]
  dsimp only
  rw [hsplice]
  rfl

/-- A member that is declared as a column is compiled to its text. -/
theorem member_of_columnText? (hdomain : c.domain = domain) {name : String}
    {members : List (String × Shape)} {path : Path} {found : Shape} (w : Weight)
    (leads : (Shape.object members).lookup? path = some found)
    (column : found.columnText? = some text) :
    c.member w (objectName name members) path = .ok (compiled text) := by
  change c.declaredMember _ (objectName name members) (.object members) path = _
  rw [Optimizer.declaredMember, leads]
  dsimp only
  rw [splice_of_columnText? hdomain column]
  exact fold_text hdomain

/-- A column or a parameter is validated to its text, unless a feature has taken its name. -/
theorem reduceAt_of_refers (hdomain : c.domain = domain) (refers : Refers c.schema node text)
    (free : ∀ name ∈ node.names, c.feature? name = none) (hfits : c.Fits level node) :
    c.reduceAt level node = .ok (compiled text) := by
  cases refers with
  | name w declared column =>
      have hname := identifier_of_columnText? hdomain (free _ (List.mem_singleton_self _)) declared column
      exact Optimizer.reduceAt_identifier_iff.mpr ⟨hfits.le, hname⟩
  | member w wObject declared leads column =>
      have hlevel := (hfits.child (List.mem_singleton_self _)).le
      have hobject := identifier_object hdomain (free _ (List.mem_singleton_self _)) declared
      exact Optimizer.reduceAt_member_iff.mpr
        ⟨hfits.le, _, Optimizer.reduceAt_identifier_iff.mpr ⟨hlevel, hobject⟩,
          member_of_columnText? hdomain w leads column⟩

/-! ### Rules on constants -/

/-- A step of validation succeeds with a constant. -/
def Answers (c : Compiler) (x : Except RuleError (Reduced Fragment)) : Prop :=
  ∃ r, x = .ok r ∧ c.IsConstant r

variable {x y z : Reduced Fragment} {xs : List (Reduced Fragment)}

/-- A scalar has a form in SQL, quoted or verbatim. -/
theorem exists_renderLiteral {value : Value} (h : value.IsScalar) (verbatim : Bool) :
    ∃ f, renderLiteral value verbatim = .ok f := by
  cases value with
  | array items | object members => exact absurd h id
  | _ => cases verbatim <;> exact ⟨_, rfl⟩

/-- A scalar is validated to a constant. -/
theorem answers_literal (hdomain : c.domain = domain) {value : Value} (h : value.IsScalar)
    (verbatim : Bool) : Answers c (c.literal value verbatim) := by
  obtain ⟨f, hf⟩ := exists_renderLiteral h verbatim
  have hrendered : c.domain.renderLiteral value verbatim = .ok f := by rw [hdomain]; exact hf
  have hliteral := Optimizer.literal_eq_ok_iff.mpr ⟨f, hrendered, rfl⟩
  exact ⟨_, hliteral, Optimizer.isConstant_of_literal hliteral⟩

/-- A compiled text is a constant. -/
theorem isConstant_compiled (hdomain : c.domain = domain) (text : String) :
    c.IsConstant (compiled text) :=
  Optimizer.isConstant_of_fold (fold_text hdomain)

/-- What folds is validated to a constant. -/
theorem answers_fold (hdomain : c.domain = domain) (f : Fragment) : Answers c (c.fold f) :=
  ⟨_, fold_eq hdomain f, Optimizer.isConstant_of_fold (fold_eq hdomain f)⟩

/-- Of a constant its text is known. -/
theorem exists_literal? (hx : c.IsConstant x) : ∃ f, x.result.literal? = some f := by
  obtain ⟨value, verbatim, f, -, rfl⟩ := hx
  exact ⟨f, rfl⟩

/-- A constant is a literal. -/
theorem isLiteral_of_isConstant (hx : c.IsConstant x) : x.node.isLiteral := by
  obtain ⟨value, verbatim, f, -, rfl⟩ := hx
  rfl

/-- An operator in front of a constant is validated to a constant. -/
theorem answers_unary (hdomain : c.domain = domain) (op : UnaryOp) (hx : c.IsConstant x) :
    Answers c (c.unary op x) := by
  obtain ⟨f, hf⟩ := exists_literal? hx
  rw [Optimizer.unary, hf]
  exact answers_fold hdomain _

/-- All operators but one can be written in SQL. -/
theorem exists_binary {op : BinaryOp} (supported : op ≠ .shiftRightUnsigned) (f g : Fragment) :
    ∃ result, binary op f g = .ok result := by
  cases op with
  | shiftRightUnsigned => exact absurd rfl supported
  | _ => exact ⟨_, rfl⟩

/-- An operator that can be written is validated to a constant between constants. -/
theorem answers_binary (hdomain : c.domain = domain) {op : BinaryOp}
    (supported : op ≠ .shiftRightUnsigned) (hx : c.IsConstant x) (hy : c.IsConstant y) :
    Answers c (c.binary op x y) := by
  obtain ⟨f, hf⟩ := exists_literal? hx
  obtain ⟨g, hg⟩ := exists_literal? hy
  obtain ⟨result, hresult⟩ := exists_binary supported f g
  have hbinary : c.domain.binary op f g = .ok result := by rw [hdomain]; exact hresult
  rw [Optimizer.binary, hf, hg]
  dsimp only
  rw [hbinary]
  exact answers_fold hdomain _

/-- Whether constants are absorbed or not, a chain of constants leaves no operand over: those that remain
are literals, some of them perhaps verbatim, and are joined. -/
theorem answers_logical (hdomain : c.domain = domain) (op : LogicalOp)
    (hxs : ∀ x ∈ xs, c.IsConstant x) : Answers c (c.logical op xs) := by
  unfold Optimizer.logical
  split
  · exact answers_fold hdomain _
  · split
    · rename_i deciding hdeciding
      exact ⟨deciding, rfl, hxs deciding (List.mem_of_find?_eq_some hdeciding)⟩
    · have kept : ∀ x ∈ xs.filter fun x => !c.isAbsorbed x, c.IsConstant x :=
        fun x hx => hxs x (List.mem_of_mem_filter hx)
      split
      · have scalar : (Value.bool op.neutral).IsScalar := trivial
        exact answers_literal hdomain scalar false
      · rename_i single hsingle
        rw [hsingle] at kept
        exact ⟨single, rfl, kept single (List.mem_singleton_self single)⟩
      · have literals : (xs.filter fun x => !c.isAbsorbed x).all fun x => x.node.isLiteral :=
          List.all_eq_true.mpr fun x hx => isLiteral_of_isConstant (kept x hx)
        rw [if_pos literals]
        exact answers_fold hdomain _

/-- A constant test selects a constant; with a verbatim test all three parts are joined. -/
theorem answers_conditional (hdomain : c.domain = domain) (hx : c.IsConstant x) (hy : c.IsConstant y)
    (hz : c.IsConstant z) : Answers c (c.conditional x y z) := by
  unfold Optimizer.conditional
  split
  · rename_i value hvalue
    refine ⟨_, rfl, ?_⟩
    split
    · exact hy
    · exact hz
  · obtain ⟨test, htest⟩ := exists_literal? hx
    obtain ⟨consequent, hconsequent⟩ := exists_literal? hy
    obtain ⟨alternate, halternate⟩ := exists_literal? hz
    rw [htest, hconsequent, halternate]
    exact answers_fold hdomain _

/-- A sequence of constants is validated to a constant. -/
theorem answers_sequence (hdomain : c.domain = domain) (hxs : ∀ x ∈ xs, c.IsConstant x) :
    Answers c (c.sequence xs) := by
  unfold Optimizer.sequence
  split
  · have scalar : Value.undefined.IsScalar := trivial
    exact answers_literal hdomain scalar false
  · rename_i last hlast
    have hconstant := hxs last (List.mem_of_getLast? hlast)
    obtain ⟨f, hf⟩ := exists_literal? hconstant
    rw [hf]
    exact ⟨last, rfl, hconstant⟩

/-! ### Whole rules -/

/-- Trees that are each validated to a constant are validated to constants in a row. -/
theorem exists_constants {nodes : List Node}
    (h : ∀ node ∈ nodes, Answers c (c.reduceAt level node)) :
    ∃ xs, List.Forall₂ (fun n x => c.reduceAt level n = .ok x) nodes xs ∧
      ∀ x ∈ xs, c.IsConstant x := by
  obtain ⟨xs, hxs⟩ := exists_forall₂ h
  refine ⟨xs, hxs.imp fun _ _ hx => hx.1, fun x hx => ?_⟩
  obtain ⟨node, -, -, hconstant⟩ := exists_of_mem_forall₂ hxs hx
  exact hconstant

/-- A rule that SQL can express is validated to a constant wherever it fits. The induction is on the
rule. -/
theorem answers_reduceAt (hdomain : c.domain = domain) (free : ∀ name, c.feature? name = none)
    (expressible : Expressible c.schema node) (hfits : c.Fits level node) :
    Answers c (c.reduceAt level node) := by
  induction expressible generalizing level with
  | literal w verbatim scalar =>
      obtain ⟨r, hr, hconstant⟩ := answers_literal hdomain scalar verbatim
      exact ⟨r, Optimizer.reduceAt_literal_iff.mpr ⟨hfits.le, hr⟩, hconstant⟩
  | column refers =>
      have hreduce := reduceAt_of_refers hdomain refers (fun name _ => free name) hfits
      exact ⟨_, hreduce, isConstant_compiled hdomain _⟩
  | unary w op expressible ih =>
      obtain ⟨x, hx, hconstant⟩ := ih (hfits.child (by simp [Node.children]))
      obtain ⟨r, hr, hanswer⟩ := answers_unary hdomain op hconstant
      exact ⟨r, Optimizer.reduceAt_unary_iff.mpr ⟨hfits.le, x, hx, hr⟩, hanswer⟩
  | binary w supported expressibleLeft expressibleRight ihLeft ihRight =>
      obtain ⟨x, hx, hleft⟩ := ihLeft (hfits.child (by simp [Node.children]))
      obtain ⟨y, hy, hright⟩ := ihRight (hfits.child (by simp [Node.children]))
      obtain ⟨r, hr, hanswer⟩ := answers_binary hdomain supported hleft hright
      exact ⟨r, Optimizer.reduceAt_binary_iff.mpr ⟨hfits.le, x, hx, y, hy, hr⟩, hanswer⟩
  | logical w op expressible ih =>
      obtain ⟨xs, hxs, hconstants⟩ := exists_constants fun n hn => ih n hn (hfits.child hn)
      obtain ⟨r, hr, hanswer⟩ := answers_logical hdomain op hconstants
      exact ⟨r, Optimizer.reduceAt_logical_iff.mpr ⟨hfits.le, xs, hxs, hr⟩, hanswer⟩
  | conditional w expressibleTest expressibleConsequent expressibleAlternate ihTest ihConsequent
      ihAlternate =>
      obtain ⟨x, hx, htest⟩ := ihTest (hfits.child (by simp [Node.children]))
      obtain ⟨y, hy, hconsequent⟩ := ihConsequent (hfits.child (by simp [Node.children]))
      obtain ⟨z, hz, halternate⟩ := ihAlternate (hfits.child (by simp [Node.children]))
      obtain ⟨r, hr, hanswer⟩ := answers_conditional hdomain htest hconsequent halternate
      refine ⟨r, ?_, hanswer⟩
      exact Optimizer.reduceAt_conditional_iff.mpr ⟨hfits.le, x, hx, y, hy, z, hz, hr⟩
  | sequence w expressible ih =>
      obtain ⟨xs, hxs, hconstants⟩ := exists_constants fun n hn => ih n hn (hfits.child hn)
      obtain ⟨r, hr, hanswer⟩ := answers_sequence hdomain hconstants
      exact ⟨r, Optimizer.reduceAt_sequence_iff.mpr ⟨hfits.le, xs, hxs, hr⟩, hanswer⟩

/-- **Rules that SQL can express compile.** Whatever the schema and the switches are, such a rule that is
not nested too deep is validated to one literal, and compiles to the text of that literal. -/
theorem compiles_of_expressible (schema : Schema) (config : OptimizerConfig) {ast : Node}
    (expressible : Expressible schema ast) (shallow : ast.depth ≤ config.maxDepth + 1) :
    ∃ value verbatim f,
      ((newCompiler schema).withConfig config).validate ast = .ok (.ofValue value verbatim) ∧
        renderLiteral value verbatim = .ok f ∧
        compileToSql ((newCompiler schema).withConfig config) ast = .ok f.toSql := by
  have hfits : ((newCompiler schema).withConfig config).Fits 0 ast := by
    unfold Optimizer.Fits
    exact (Nat.zero_add ast.depth).symm ▸ shallow
  obtain ⟨r, hr, value, verbatim, f, hf, rfl⟩ :=
    answers_reduceAt (c := (newCompiler schema).withConfig config) rfl (fun _ => rfl) expressible hfits
  refine ⟨value, verbatim, f, ?_, hf, compileToSql_eq_ok_iff.mpr ⟨_, hr, ?_⟩⟩
  · rw [Optimizer.validate, Optimizer.compile, hr]
    rfl
  · exact map_eq_ok_iff.mpr ⟨f, hf, rfl⟩

end Sql

namespace Sample

open Sql

/-- A rule over the columns of `sqlSchema`. Its test is verbatim, and it selects between a chain of
constants and text and the comparison of an empty chain with a sequence that ends in an empty one. -/
def mixedRule : Node :=
  .conditional 0 (.literal 0 (.string "t.label IS NULL") true)
    (.logical 0 .and
      [.literal 0 (.bool true) false, .literal 0 .null true,
        .binary 0 .notEq (.unary 0 .minus (memberOf "past" "amount")) (.ofValue (.string "0") false)])
    (.binary 0 .eq (.logical 0 .or []) (.sequence 0 [.identifier 0 "lastMonth", .sequence 0 []]))

/-- The rule of mixed constants can be expressed. -/
theorem expressible_mixedRule : Expressible sqlSchema mixedRule := by
  have scalar {value : Value} (verbatim : Bool) (h : value.IsScalar) :
      Expressible sqlSchema (.literal 0 value verbatim) := .literal 0 verbatim h
  have column : Expressible sqlSchema (memberOf "past" "amount") := .column (.member 0 0 rfl rfl rfl)
  have period : Expressible sqlSchema (.identifier 0 "lastMonth") := .column (.name 0 rfl rfl)
  have compared : Expressible sqlSchema
      (.binary 0 .notEq (.unary 0 .minus (memberOf "past" "amount")) (.ofValue (.string "0") false)) :=
    .binary 0 (by decide) (.unary 0 .minus column) (scalar false trivial)
  refine .conditional 0 (scalar true trivial) (.logical 0 .and ?_)
    (.binary 0 (by decide) (.logical 0 .or (List.forall_mem_nil _)) (.sequence 0 ?_))
  · exact List.forall_mem_cons.mpr ⟨scalar false trivial,
      List.forall_mem_cons.mpr ⟨scalar true trivial, List.forall_mem_singleton.mpr compared⟩⟩
  · exact List.forall_mem_cons.mpr ⟨period,
      List.forall_mem_singleton.mpr (.sequence 0 (List.forall_mem_nil _))⟩

/-- With absorption switched off, all operands of the chain are in the text. -/
theorem compiles_of_expressible_mixedRule : Expressible sqlSchema mixedRule ∧
    mixedRule.depth ≤ 5 + 1 ∧ ∃ value verbatim f,
      ((newCompiler sqlSchema).withConfig ⟨5, true, false⟩).validate mixedRule =
        .ok (.ofValue value verbatim) ∧
      renderLiteral value verbatim = .ok f ∧
      f.toSql = "CASE WHEN t.label IS NULL THEN (TRUE) AND (null) AND (-(t.amount)!='0') " ++
        "ELSE (FALSE=NULL) END" := by
  have shallow : mixedRule.depth ≤ 5 + 1 := by decide
  obtain ⟨value, verbatim, f, hvalidate, hrendered, hsql⟩ :=
    compiles_of_expressible sqlSchema ⟨5, true, false⟩ expressible_mixedRule shallow
  refine ⟨expressible_mixedRule, shallow, value, verbatim, f, hvalidate, hrendered, ?_⟩
  exact Except.ok.inj (hsql.symm.trans rfl)

end Sample

end RuleLang
