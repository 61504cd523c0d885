import RuleLang.Evaluation.Computation
import RuleLang.Reduction
import RuleLang.Scope

/-!
# Features

A feature is a named function that rules may call. Validation asks it to describe each call; evaluation
calls it with a scope and the values of the arguments, and the call may act and suspend.

* `Feature`: both sides of a feature.
* `Feature.staticSide`: what validation for evaluation knows of it.
-/

namespace RuleLang

/-- A function that rules may call, acting on worlds of type `ω`. -/
structure Feature (ω : Type) where
  /-- The description of a call, given what is known of its arguments. -/
  describe : List (Reduction Value) → Except RuleError (Description Value)
  /-- A compiler that turns each argument into text before the call. -/
  argumentCompiler? : Option (Node → Except RuleError String)
  /-- The call itself. -/
  call : Scope → List Value → Computation ω RuleError Value

namespace Feature

variable {ω : Type}

/-- What validation knows of a feature that evaluation calls. A call always runs, so a constant in the
description does not count. -/
def staticSide (feature : Feature ω) : StaticFeature Value where
  describe arguments := (feature.describe arguments).map fun d => { d with value? := none }
  argumentCompiler? := feature.argumentCompiler?

end Feature

end RuleLang
