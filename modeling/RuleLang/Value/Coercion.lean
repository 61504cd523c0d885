import RuleLang.Number.Arithmetic
import RuleLang.Number.Reading
import RuleLang.Value.Text

/-!
# Values as numbers

* `Value.toNumber`: the number that a value stands for in arithmetic.
* `Value.toInt32`, `Value.toUInt32`: the word that it stands for in bit operations.
* `Value.toPrimitive`: arrays and objects as texts.
-/

namespace RuleLang.Value

/-- The number that a value stands for. Texts are read, and an array is read as its text. -/
def toNumber : Value → Float
  | undefined => Number.nan
  | null => Number.ofInt 0
  | bool b => Number.ofInt (if b then 1 else 0)
  | number x => x
  | string s => Number.read s
  | array items => Number.read (text (array items))
  | object _ => Number.nan

/-- The signed 32-bit word that a value stands for. -/
def toInt32 (v : Value) : Int32 :=
  Number.toInt32 v.toNumber

/-- The unsigned 32-bit word that a value stands for. -/
def toUInt32 (v : Value) : UInt32 :=
  Number.toUInt32 v.toNumber

/-- Arrays and objects become their texts; other values stay. -/
def toPrimitive : Value → Value
  | array items => string (text (array items))
  | object members => string (text (object members))
  | value => value

end RuleLang.Value
