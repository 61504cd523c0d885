/-!
# Errors

Everything that can go wrong with a rule: reading it, validating it, compiling it or evaluating it.

* `RuleError`: the causes.
* `RuleError.message`: the wording of each cause.
* `RuleError.blame`: names the tree node at which a cause arose, unless one is named already.
* `RuleError.rootCause`: the cause under the named node.
-/

namespace RuleLang

/-- Why a rule could not be read, validated, compiled or evaluated. -/
inductive RuleError where
  /-- A cause that arose at a node, which is given as it was written at that moment. -/
  | invalidNode (node : String) (cause : RuleError)
  /-- A name that is neither a feature nor an entry of the schema. -/
  | unknownIdentifier (name : String)
  /-- A member that a shape or a literal does not have. -/
  | unknownPath (path : String)
  /-- An operator that a domain does not write. -/
  | unsupportedOperator (operator domain : String)
  /-- Something called or left uncalled that may not be. -/
  | notCallable (reason : String)
  /-- A tree that had to become a constant and did not. -/
  | notConstant (reason : String)
  | typeError (reason : String)
  /-- A tree nested deeper than the limit. -/
  | depthExceeded (limit : Nat)
  /-- A call of a feature that failed. -/
  | featureFailed (feature : String) (cause : RuleError)
  /-- A call of a feature that failed for a reason outside this library. -/
  | featureRejected (feature reason : String)
  | executionFailed (reason : String)
  | invalidParameter (reason : String)
  /-- A file that could not be read. -/
  | unreadableFile (reason : String)
  /-- A document that does not have the expected form. -/
  | malformedDocument (reason : String)
  deriving DecidableEq

namespace RuleError

/-- The wording of an error. -/
def message : RuleError → String
  | invalidNode node cause => "SyntaxError: invalid node " ++ node ++ ": " ++ cause.message
  | unknownIdentifier name => "UnknownIdentifier: " ++ name
  | unknownPath path => "UnknownPath: " ++ path
  | unsupportedOperator operator domain =>
    "UnsupportedOperator: " ++ operator ++ " in " ++ domain ++ " domain"
  | notCallable reason => "NotCallable: " ++ reason
  | notConstant reason => "NotConstant: " ++ reason
  | typeError reason => "TypeError: " ++ reason
  | depthExceeded limit => "DepthExceeded: expression nesting exceeds " ++ toString limit
  | featureFailed feature cause => "FeatureFailed: " ++ feature ++ ": " ++ cause.message
  | featureRejected feature reason => "FeatureFailed: " ++ feature ++ ": " ++ reason
  | executionFailed reason => "ExecutionError: " ++ reason
  | invalidParameter reason => "InvalidParameter: " ++ reason
  | unreadableFile reason => "IoError: " ++ reason
  | malformedDocument reason => "SerdeJsonError: " ++ reason

/-- Whether an error names a node. -/
def isInvalidNode : RuleError → Bool
  | invalidNode _ _ => true
  | _ => false

/-- Names a node as the place of an error. The innermost node is the one that counts: an error that
names one already stays as it is. -/
def blame (node : String) : RuleError → RuleError
  | invalidNode inner cause => invalidNode inner cause
  | cause => invalidNode node cause

/-- The cause under the named node. -/
def rootCause : RuleError → RuleError
  | invalidNode _ cause => cause.rootCause
  | cause => cause

end RuleError

end RuleLang
