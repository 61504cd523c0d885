import RuleLang.Engine
import RuleLang.Feature.Aggregate
import RuleLang.Feature.Classifier

/-!
# The features of transaction rules

* `Sql.withClassifiers`: a compiler with the classifiers.
* `Engine.withTransactionFeatures`: an engine with the classifiers and the aggregates.
-/

namespace RuleLang

/-- Adds the classifiers to a compiler. -/
def Sql.withClassifiers (compiler : Sql.Compiler) : Sql.Compiler :=
  (compiler.addFeature "isCredit" Classifier.credit.sqlFeature).addFeature "isDebit"
    Classifier.debit.sqlFeature

/-- Adds the classifiers and the aggregates to an engine. -/
def Engine.withTransactionFeatures {ω : Type} (engine : Engine ω) (compiler : Sql.Compiler)
    (runner : QueryRunner ω) : Engine ω :=
  (((engine.addFeature "isCredit" Classifier.credit.feature).addFeature "isDebit"
    Classifier.debit.feature).addFeature "count" (Aggregate.count.feature compiler runner)).addFeature
    "sum" (Aggregate.sum.feature compiler runner)

end RuleLang
