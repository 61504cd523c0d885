import RuleLang.Members
import RuleLang.Path
import RuleLang.Value.Basic

/-!
# Members of values

* `Value.get?`: one step into an object or array.
* `Value.getPath?`: a whole path, step by step.
-/

namespace RuleLang.Value

/-- The member at a step. An index names the key that is its text, and a key names the index that it
writes. -/
def get? : Value → Segment → Option Value
  | object members, segment => Members.find? segment.keyText members
  | array items, segment => segment.position?.bind fun i => items[i]?
  | _, _ => none

/-- The member at the end of a path. -/
def getPath? : Value → Path → Option Value
  | value, [] => some value
  | value, segment :: path => (value.get? segment).bind (getPath? · path)

end RuleLang.Value
