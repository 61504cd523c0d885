import RuleLang.Config
import RuleLang.Domain.Basic
import RuleLang.Reduction
import RuleLang.Schema.Basic

/-!
# Optimizers

An optimizer validates trees over a schema and a set of features, and folds what is constant in its
domain.

* `Optimizer`: a domain, a schema, features by name and a configuration.
* `Optimizer.addFeature`: adds a feature or replaces the one of that name.
-/

namespace RuleLang

/-- What trees are validated against. -/
structure Optimizer (V : Type) where
  domain : Domain V
  schema : Schema
  /-- The features by name, in ascending order of the names. -/
  features : List (String × StaticFeature V)
  config : OptimizerConfig

namespace Optimizer

variable {V : Type}

/-- An optimizer without features, in the default configuration. -/
def new (domain : Domain V) (schema : Schema) : Optimizer V :=
  ⟨domain, schema, [], .default⟩

/-- The same optimizer in another configuration. -/
def withConfig (o : Optimizer V) (config : OptimizerConfig) : Optimizer V :=
  { o with config := config }

/-- Adds a feature; one of the same name is replaced. -/
def addFeature (o : Optimizer V) (name : String) (feature : StaticFeature V) : Optimizer V :=
  { o with features := Members.insert name feature o.features }

/-- The feature of a name. -/
def feature? (o : Optimizer V) (name : String) : Option (StaticFeature V) :=
  Members.find? name o.features

end Optimizer

end RuleLang
