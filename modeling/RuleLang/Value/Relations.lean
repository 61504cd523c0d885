import RuleLang.Value.Coercion

/-!
# Relations between values

* `Value.strictEq`: equality of kind and content; what is not a number equals itself.
* `Value.looseEq`: equality after coercion, by which `1` and `"1"` are equal.
* `Value.compare?`: the order of two texts, or else of two numbers.
-/

namespace RuleLang.Value

/-- Equal numbers, where what is not a number equals itself. -/
def sameNumber (x y : Float) : Bool :=
  x == y || (x.isNaN && y.isNaN)

mutual

/-- Equality of kind and content. -/
def strictEq : Value → Value → Bool
  | undefined, undefined => true
  | null, null => true
  | bool a, bool b => a == b
  | number x, number y => sameNumber x y
  | string s, string t => s == t
  | array xs, array ys => strictEqItems xs ys
  | object xs, object ys => strictEqMembers xs ys
  | _, _ => false

/-- Equality of items, one by one. -/
def strictEqItems : List Value → List Value → Bool
  | [], [] => true
  | x :: xs, y :: ys => strictEq x y && strictEqItems xs ys
  | _, _ => false

/-- Equality of members, one by one in key order. -/
def strictEqMembers : List (String × Value) → List (String × Value) → Bool
  | [], [] => true
  | (j, x) :: xs, (k, y) :: ys => j == k && strictEq x y && strictEqMembers xs ys
  | _, _ => false

end

/-- The number or text that a value is compared as across kinds. -/
def comparand : Value → Value
  | bool b => number (toNumber (bool b))
  | value => value.toPrimitive

/-- Equality of two numbers or texts; a text is read as a number beside a number. -/
def comparandEq : Value → Value → Bool
  | number x, number y => x == y
  | string s, string t => s == t
  | number x, string t => x == toNumber (string t)
  | string s, number y => toNumber (string s) == y
  | _, _ => false

/-- Equality after coercion. The two absences are equal to each other and to nothing else; two
arrays, and two objects, are compared by content; values of different kinds as numbers or texts. -/
def looseEq (a b : Value) : Bool :=
  if a.isNullish || b.isNullish then a.isNullish && b.isNullish
  else
    match a, b with
    | bool p, bool q => p == q
    | array xs, array ys => strictEq (array xs) (array ys)
    | object xs, object ys => strictEq (object xs) (object ys)
    | a, b => comparandEq a.comparand b.comparand

/-- The order of two numbers; none beside what is not a number. -/
def compareNumbers? (x y : Float) : Option Ordering :=
  if x < y then some .lt
  else if y < x then some .gt
  else if x == y then some .eq
  else none

/-- The order of two values: texts by code points, everything else as numbers. -/
def compare? (a b : Value) : Option Ordering :=
  match a.toPrimitive, b.toPrimitive with
  | string s, string t => some (compareOfLessAndEq s t)
  | p, q => compareNumbers? p.toNumber q.toNumber

end RuleLang.Value
