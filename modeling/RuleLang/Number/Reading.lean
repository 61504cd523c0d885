import RuleLang.Number.Binary64
import RuleLang.Text.Blank

/-!
# Numbers in text

The numbers a rule author may write in a text: a decimal with an optional fraction and exponent, the
word `Infinity` with an optional sign, an unsigned integer with a prefix for base sixteen, eight or
two, and blank text for zero. Every other text is not a number.

* `Number.Literal`: a decimal read from text, before rounding.
* `Number.readDecimal?`: the decimal grammar.
* `Number.readRadix?`: the prefixed integers.
* `Number.readCommon`: the common notation, which knows more words.
* `Number.read`: the number that a text stands for.
-/

namespace RuleLang.Number

/-- A signed decimal, exactly as written. -/
structure Literal where
  negative : Bool
  digits : Nat
  exponent : Int

/-- The double nearest to a literal. -/
def Literal.toFloat (l : Literal) : Float :=
  ofDecimal l.negative l.digits l.exponent

/-- The value of a digit in bases up to sixteen. -/
def digitValue? (c : Char) : Option Nat :=
  if '0' ≤ c ∧ c ≤ '9' then some (c.toNat - '0'.toNat)
  else if 'a' ≤ c ∧ c ≤ 'f' then some (c.toNat - 'a'.toNat + 10)
  else if 'A' ≤ c ∧ c ≤ 'F' then some (c.toNat - 'A'.toNat + 10)
  else none

/-- The natural number that a list of decimal digits writes. -/
def naturalOfDigits (cs : List Char) : Nat :=
  cs.foldl (fun n c => n * 10 + (c.toNat - '0'.toNat)) 0

/-- A sign at the front of a list; without one the rest is positive. -/
def takeSign : List Char → Bool × List Char
  | '-' :: rest => (true, rest)
  | '+' :: rest => (false, rest)
  | rest => (false, rest)

/-- An exponent: nothing, or a letter `e`, an optional sign and at least one digit up to the end. -/
def readExponent? : List Char → Option Int
  | [] => some 0
  | c :: rest =>
    if c = 'e' ∨ c = 'E' then
      let (negative, digits) := takeSign rest
      if digits.isEmpty || !digits.all Char.isDigit then none
      else
        let n : Int := naturalOfDigits digits
        some (if negative then -n else n)
    else none

/-- The fraction digits after an optional point, and what follows them. -/
def takeFraction : List Char → List Char × List Char
  | '.' :: rest => (rest.takeWhile Char.isDigit, rest.dropWhile Char.isDigit)
  | rest => ([], rest)

/-- A decimal: an optional sign, digits with an optional point and at least one digit before or after
it, and an optional exponent. -/
def readDecimal? (cs : List Char) : Option Literal :=
  let (negative, unsigned) := takeSign cs
  let whole := unsigned.takeWhile Char.isDigit
  let (fraction, rest) := takeFraction (unsigned.dropWhile Char.isDigit)
  if whole.isEmpty && fraction.isEmpty then none
  else
    match readExponent? rest with
    | some e => some ⟨negative, naturalOfDigits (whole ++ fraction), e - fraction.length⟩
    | none => none

/-- The base that a prefix announces, and the digits after it. -/
def radixPrefix? : List Char → Option (Nat × List Char)
  | '0' :: c :: digits =>
    if c = 'x' ∨ c = 'X' then some (16, digits)
    else if c = 'o' ∨ c = 'O' then some (8, digits)
    else if c = 'b' ∨ c = 'B' then some (2, digits)
    else none
  | _ => none

/-- The value of digits in a base, added up in doubles from the left; not a number when one of them
is not a digit of that base. -/
def radixValue (base : Nat) (digits : List Char) : Float :=
  let value? := digits.foldl
    (fun (acc : Option Float) c =>
      match acc, digitValue? c with
      | some x, some d => if d < base then some (x * ofInt base + ofInt d) else none
      | _, _ => none)
    (some (ofInt 0))
  value?.getD nan

/-- A prefixed integer; `none` when there is no prefix. A prefix without digits is not a number. -/
def readRadix? (cs : List Char) : Option Float :=
  match radixPrefix? cs with
  | some (_, []) => some nan
  | some (base, digits) => some (radixValue base digits)
  | none => none

/-- A number in the common notation, which has words in any case beside the decimals: `inf` and
`infinity` with an optional sign, and `nan`. -/
def readCommon (cs : List Char) : Float :=
  let (negative, unsigned) := takeSign cs
  let word := unsigned.map Char.toLower
  if word = "inf".toList ∨ word = "infinity".toList then infinity negative
  else if word = "nan".toList then nan
  else
    match readDecimal? cs with
    | some l => l.toFloat
    | none => nan

/-- A letter that no decimal has. -/
def isForeignLetter (c : Char) : Bool :=
  c.isAlpha && c != 'e' && c != 'E'

/-- The number that a list of characters stands for, without blanks at its ends. The words of the common
notation are not numbers here. -/
def readTrimmed (cs : List Char) : Float :=
  if cs.isEmpty then ofInt 0
  else
    match readRadix? cs with
    | some x => x
    | none =>
      if cs = "Infinity".toList ∨ cs = "+Infinity".toList then infinity false
      else if cs = "-Infinity".toList then infinity true
      else if cs.any isForeignLetter then nan
      else readCommon cs

/-- The number that a text stands for; blanks at its ends do not matter. -/
def read (s : String) : Float :=
  readTrimmed (Text.trimChars s.toList)

end RuleLang.Number
