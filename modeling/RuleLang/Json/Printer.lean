import RuleLang.Json.Basic
import RuleLang.Number.Text
import RuleLang.Text.Quoted

/-!
# Printed JSON

* `Json.compact`: a document without blanks.
* `Json.pretty`: a document with one member or item a line, indented by two; an empty container stays
  on its line.
-/

namespace RuleLang.Json

/-- The text of a document that has no parts. -/
def leafText : Json → String
  | null => "null"
  | bool b => if b then "true" else "false"
  | integer i => Number.integerText i
  | real x => Number.jsonText x
  | string s => Text.jsonQuoted s
  | array _ => "[]"
  | object _ => "\x7b\x7d"

mutual

/-- A document without blanks. -/
def compact : Json → String
  | array items => "[" ++ compactItems items ++ "]"
  | object members => "\x7b" ++ compactMembers members ++ "\x7d"
  | null => leafText null
  | bool b => leafText (bool b)
  | integer i => leafText (integer i)
  | real x => leafText (real x)
  | string s => leafText (string s)

/-- Items with commas between them. -/
def compactItems : List Json → String
  | [] => ""
  | [item] => compact item
  | item :: next :: rest => compact item ++ "," ++ compactItems (next :: rest)

/-- Members with commas between them. -/
def compactMembers : List (String × Json) → String
  | [] => ""
  | [(key, value)] => Text.jsonQuoted key ++ ":" ++ compact value
  | (key, value) :: next :: rest =>
    Text.jsonQuoted key ++ ":" ++ compact value ++ "," ++ compactMembers (next :: rest)

end

/-- The start of a line at an indentation. -/
def newline (indent : Nat) : String :=
  String.ofList ('\n' :: List.replicate indent ' ')

mutual

/-- A document laid out from an indentation on. -/
def prettyAt (indent : Nat) : Json → String
  | array [] => "[]"
  | array (item :: rest) =>
    "[" ++ prettyItems (indent + 2) (item :: rest) ++ newline indent ++ "]"
  | object [] => "\x7b\x7d"
  | object (member :: rest) =>
    "\x7b" ++ prettyMembers (indent + 2) (member :: rest) ++ newline indent ++ "\x7d"
  | null => leafText null
  | bool b => leafText (bool b)
  | integer i => leafText (integer i)
  | real x => leafText (real x)
  | string s => leafText (string s)

/-- Items, each on its line. -/
def prettyItems (indent : Nat) : List Json → String
  | [] => ""
  | [item] => newline indent ++ prettyAt indent item
  | item :: next :: rest =>
    newline indent ++ prettyAt indent item ++ "," ++ prettyItems indent (next :: rest)

/-- Members, each on its line. -/
def prettyMembers (indent : Nat) : List (String × Json) → String
  | [] => ""
  | [(key, value)] => newline indent ++ Text.jsonQuoted key ++ ": " ++ prettyAt indent value
  | (key, value) :: next :: rest =>
    newline indent ++ Text.jsonQuoted key ++ ": " ++ prettyAt indent value ++ "," ++
      prettyMembers indent (next :: rest)

end

/-- A document with one member or item a line. -/
def pretty (json : Json) : String :=
  prettyAt 0 json

end RuleLang.Json
