import RuleLang.Number.Text
import RuleLang.Value.Basic

/-!
# The text of a value

The text used when values are joined to texts, compared as texts and shown. An array is its items
with commas between them, where an absence is empty; an object has one fixed text.

* `Value.text`: the text of a value.
-/

namespace RuleLang.Value

mutual

/-- The text of a value. -/
def text : Value → String
  | undefined => "undefined"
  | null => "null"
  | bool b => if b then "true" else "false"
  | number x => Number.text x
  | string s => s
  | array items => itemsText items
  | object _ => "[object Object]"

/-- The texts of items with commas between them; an absence is empty. -/
def itemsText : List Value → String
  | [] => ""
  | [item] => if item.isNullish then "" else text item
  | item :: next :: rest =>
    (if item.isNullish then "" else text item) ++ "," ++ itemsText (next :: rest)

end

end RuleLang.Value
