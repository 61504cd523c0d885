import RuleLang.Node.Basic
import RuleLang.RuleError
import RuleLang.Schema.Shape
import RuleLang.TypeEstimate

/-!
# What is known of a validated tree

* `Origin`: where the value of a tree comes from.
* `Reduction`: its estimated type, its weight and its origin.
* `StaticFeature`: what validation knows of a feature: a description of each call, and perhaps a
  compiler for the arguments.
-/

namespace RuleLang

/-- Where the value of a tree comes from. -/
inductive Origin (V : Type) where
  /-- A constant. -/
  | literal (value : V)
  /-- A name or member with a declared shape. -/
  | declared (shape : Shape)
  /-- The name of a feature. -/
  | feature (name : String)
  /-- A computation, perhaps of a declared shape. -/
  | computed (shape? : Option Shape)

/-- What is known of a tree before it is evaluated. -/
structure Reduction (V : Type) where
  estimate : TypeEstimate
  weight : Weight
  origin : Origin V

namespace Reduction

variable {V : Type}

/-- What is known of a constant. -/
def ofLiteral (estimate : TypeEstimate) (value : V) : Reduction V :=
  ⟨estimate, 0, .literal value⟩

/-- What is known of a computation. -/
def ofComputed (estimate : TypeEstimate) (weight : Weight) (shape? : Option Shape) : Reduction V :=
  ⟨estimate, weight, .computed shape?⟩

/-- The constant, if the tree is one. -/
def literal? (r : Reduction V) : Option V :=
  match r.origin with
  | .literal value => some value
  | _ => none

/-- The declared shape, if one is known. -/
def shape? (r : Reduction V) : Option Shape :=
  match r.origin with
  | .declared shape => some shape
  | .computed shape? => shape?
  | _ => none

end Reduction

/-- A validated tree with what is known of it. -/
structure Reduced (V : Type) where
  node : Node
  result : Reduction V

/-- The declared outcome of a call. -/
structure Description (V : Type) where
  /-- The cost of the call itself. -/
  weight : Weight
  /-- The shape of its value. -/
  returns : Shape
  /-- The constant that the call folds to, if it is known beforehand. -/
  value? : Option V

/-- What validation knows of a feature. -/
structure StaticFeature (V : Type) where
  /-- The description of a call, given what is known of its arguments. -/
  describe : List (Reduction V) → Except RuleError (Description V)
  /-- A compiler that turns each argument into text, which then stands as a verbatim literal. -/
  argumentCompiler? : Option (Node → Except RuleError String)

end RuleLang
