import RuleLang.Json.Basic
import RuleLang.Number.Text

/-!
# Member paths

A path leads into a value or a shape step by step. A step names a key or counts an index.

* `Segment`: one step.
* `Segment.keyText`, `readIndex?`: how a step of one kind stands for one of the other.
* `Path.text`: a path as it follows the text of an object.
-/

namespace RuleLang

/-- One step of a member path. -/
inductive Segment where
  | index (i : Nat)
  | key (name : String)
  deriving DecidableEq

/-- A member path. -/
abbrev Path := List Segment

/-- The largest index that a document or a text can name. -/
def largestIndex : Nat := Nat.pow 2 64 - 1

/-- The decimal text of an index. -/
def indexText (i : Nat) : String :=
  String.ofList (Number.decimalDigits i)

/-- The index that a text names: decimal digits after an optional plus sign. -/
def readIndex? (s : String) : Option Nat :=
  let digits := match s.toList with
    | '+' :: rest => rest
    | cs => cs
  if digits.isEmpty || !digits.all Char.isDigit then none
  else
    let n := digits.foldl (fun n c => n * 10 + (c.toNat - '0'.toNat)) 0
    if n ≤ largestIndex then some n else none

namespace Segment

/-- The key under which a step is found in an object. -/
def keyText : Segment → String
  | index i => indexText i
  | key name => name

/-- The position at which a step is found in an array. -/
def position? : Segment → Option Nat
  | index i => some i
  | key name => readIndex? name

/-- A step as it follows the text of an object. -/
def text : Segment → String
  | index i => "[" ++ indexText i ++ "]"
  | key name => "." ++ name

/-- A step as a document. -/
def toJson : Segment → Json
  | index i => Json.ofNat i
  | key name => .string name

/-- The step that a document stands for. -/
def ofJson? : Json → Option Segment
  | .string s => some (key s)
  | json => json.natural?.map index

end Segment

namespace Path

/-- A path as it follows the text of an object. -/
def text (path : Path) : String :=
  String.join (path.map Segment.text)

/-- A path as a document. -/
def toJson (path : Path) : Json :=
  .array (path.map Segment.toJson)

/-- The path that a document stands for. -/
def ofJson? : Json → Option Path
  | .array items => items.mapM Segment.ofJson?
  | _ => none

end Path

end RuleLang
