import RuleLang.Optimizer.Reduce
import RuleLang.Sql.Domain

/-!
# Compiling rules to SQL

A rule compiles to SQL when it folds to one literal in the domain of SQL.

* `Sql.Compiler`: an optimizer in the domain of SQL.
* `Sql.compileToSql`: the text that a rule compiles to.
-/

namespace RuleLang.Sql

/-- An optimizer in the domain of SQL. -/
abbrev Compiler := Optimizer Fragment

/-- A compiler over a schema. -/
def newCompiler (schema : Schema) : Compiler :=
  .new domain schema

/-- The text of a validated tree, which has to be a literal. -/
def literalText (node : Node) : Except RuleError String :=
  match node.literal? with
  | some (value, verbatim) => (renderLiteral value verbatim).map Fragment.toSql
  | none => .error (.notConstant ("`" ++ node.text ++ "` does not compile to SQL"))

/-- The text that a rule compiles to. -/
def compileToSql (compiler : Compiler) (ast : Node) : Except RuleError String := do
  literalText (← compiler.validate ast)

end RuleLang.Sql
