import RuleLang.Json.Basic
import RuleLang.Members
import RuleLang.Number.Significand

/-!
# Reading JSON

A strict reader of whole documents: no trailing comma, no comment, no control character in a string,
no lone surrogate, no number beyond the range of doubles. Members of an object are put in key order,
and the last of two with the same key counts. How a decimal becomes a double is a parameter, and nesting
may be limited.

* `Json.parse?`: a document that fills a text.
* `Json.parseFile?`: a document that fills the text of a file.
* `Json.nestingLimit`: how many containers may stand inside each other in a file.
-/

namespace RuleLang.Json

/-- The blanks between the parts of a document. -/
def isSpace (c : Char) : Bool :=
  c == ' ' || c == '\n' || c == '\t' || c == '\r'

/-- Drops blanks in front. -/
def skipSpace (cs : List Char) : List Char :=
  cs.dropWhile isSpace

/-- The number of four hexadecimal digits. -/
def hexWord? (a b c d : Char) : Option Nat :=
  match Number.digitValue? a, Number.digitValue? b, Number.digitValue? c, Number.digitValue? d with
  | some a, some b, some c, some d => some (((a * 16 + b) * 16 + c) * 16 + d)
  | _, _, _, _ => none

/-- The first half of a surrogate pair. -/
def isHighSurrogate (n : Nat) : Bool :=
  0xD800 ≤ n && n ≤ 0xDBFF

/-- The second half of a surrogate pair. -/
def isLowSurrogate (n : Nat) : Bool :=
  0xDC00 ≤ n && n ≤ 0xDFFF

/-- The character of an escape of one letter. -/
def shortEscape? (c : Char) : Option Char :=
  if c = '"' then some '"'
  else if c = '\\' then some '\\'
  else if c = '/' then some '/'
  else if c = 'b' then some '\x08'
  else if c = 'f' then some '\x0c'
  else if c = 'n' then some '\n'
  else if c = 'r' then some '\r'
  else if c = 't' then some '\t'
  else none

/-- What an escape with four hexadecimal digits stands for. -/
inductive Unit16 where
  /-- A character of its own. -/
  | whole (c : Char)
  /-- The first half of a pair. -/
  | high (n : Nat)
  /-- The second half of a pair. -/
  | low (n : Nat)

/-- Reads four hexadecimal digits as a unit. -/
def unit16? (a b c d : Char) : Option Unit16 :=
  (hexWord? a b c d).map fun n =>
    if isHighSurrogate n then .high n
    else if isLowSurrogate n then .low n
    else .whole (Char.ofNat n)

/-- The rest of a string after its opening quote, and what follows the closing one. The characters
read so far are in `before`, last first; `pending` is a first half that waits for its second. -/
def parseString (before : List Char) (pending : Option Nat) :
    List Char → Option (String × List Char)
  | '"' :: rest =>
    match pending with
    | none => some (String.ofList before.reverse, rest)
    | some _ => none
  | '\\' :: 'u' :: a :: b :: c :: d :: rest =>
    match unit16? a b c d, pending with
    | some (.whole ch), none => parseString (ch :: before) none rest
    | some (.high n), none => parseString before (some n) rest
    | some (.low n), some high =>
      parseString (Char.ofNat (0x10000 + (high - 0xD800) * 0x400 + (n - 0xDC00)) :: before) none rest
    | _, _ => none
  | '\\' :: c :: rest =>
    match shortEscape? c, pending with
    | some ch, none => parseString (ch :: before) none rest
    | _, _ => none
  | c :: rest =>
    if pending.isSome || c == '\\' || c.toNat < 0x20 then none
    else parseString (c :: before) none rest
  | [] => none

/-- The digits in front of a list, and what follows them. -/
def takeDigits (cs : List Char) : List Char × List Char :=
  (cs.takeWhile Char.isDigit, cs.dropWhile Char.isDigit)

/-- The integer that a number without fraction and exponent is, if it fits 64 bits. Negative zero is no
integer. -/
def fixedInteger? (negative : Bool) (digits : List Char) : Option Json :=
  let n := Number.naturalOfDigits digits
  if negative then if 0 < n && n ≤ Nat.pow 2 63 then some (integer (-(n : Int))) else none
  else if n < Nat.pow 2 64 then some (integer n) else none

/-- A number in the range of doubles. -/
def realNumber? (x : Float) : Option Json :=
  if Number.isFinite x then some (real x) else none

/-- The fraction of a number: no point, or a point and at least one digit. -/
def parseFraction : List Char → Option (List Char × List Char)
  | '.' :: rest =>
    let (digits, rest) := takeDigits rest
    if digits.isEmpty then none else some (digits, rest)
  | rest => some ([], rest)

/-- The exponent of a number: none at all, or the letter, an optional sign and at least one digit. -/
def parseExponent : List Char → Option (Option Int × List Char)
  | c :: rest =>
    if c = 'e' ∨ c = 'E' then
      let (negative, rest) := Number.takeSign rest
      let (digits, rest) := takeDigits rest
      if digits.isEmpty then none
      else
        let n : Int := Number.naturalOfDigits digits
        some (some (if negative then -n else n), rest)
    else some (none, c :: rest)
  | [] => some (none, [])

section

variable (reading : Number.DecimalReading)

/-- A number after its optional minus sign: an integer of 64 bits, or a double. A leading zero stands
alone. -/
def parseUnsigned (negative : Bool) (cs : List Char) : Option (Json × List Char) := do
  let (whole, rest) := takeDigits cs
  if whole.isEmpty || (1 < whole.length && whole.head? == some '0') then none
  else
    let (fraction, rest) ← parseFraction rest
    let (exponent?, rest) ← parseExponent rest
    let integer? :=
      if fraction.isEmpty && exponent?.isNone then fixedInteger? negative whole else none
    let number ← integer?.or (realNumber? (reading negative whole fraction (exponent?.getD 0)))
    return (number, rest)

/-- A number. -/
def parseNumber : List Char → Option (Json × List Char)
  | '-' :: rest => parseUnsigned reading true rest
  | rest => parseUnsigned reading false rest

/-- A word in front of a list. -/
def parseWord (word : String) (json : Json) (cs : List Char) : Option (Json × List Char) :=
  if word.toList.isPrefixOf cs then some (json, cs.drop word.length) else none

mutual

/-- One document in front of a list; `room` is how many containers may still be opened. The fuel
bounds the number of nested calls and is never exhausted when it exceeds the length of the list. -/
def parseValue : Nat → Nat → List Char → Option (Json × List Char)
  | 0, _, _ => none
  | fuel + 1, room, cs =>
    match skipSpace cs with
    | '"' :: rest => (parseString [] none rest).map fun (s, rest) => (string s, rest)
    | '[' :: rest =>
      match room with
      | 0 => none
      | room + 1 =>
        match skipSpace rest with
        | ']' :: rest => some (array [], rest)
        | rest => (parseItems fuel room rest).map fun (items, rest) => (array items, rest)
    | '\x7b' :: rest =>
      match room with
      | 0 => none
      | room + 1 =>
        match skipSpace rest with
        | '\x7d' :: rest => some (object [], rest)
        | rest =>
          (parseMembers fuel room rest).map fun (members, rest) =>
            (object (Members.ofList members), rest)
    | 'n' :: rest => parseWord "null" null ('n' :: rest)
    | 't' :: rest => parseWord "true" (bool true) ('t' :: rest)
    | 'f' :: rest => parseWord "false" (bool false) ('f' :: rest)
    | rest => parseNumber reading rest

/-- The items of an array up to its closing bracket; there is at least one. -/
def parseItems : Nat → Nat → List Char → Option (List Json × List Char)
  | 0, _, _ => none
  | fuel + 1, room, cs =>
    match parseValue fuel room cs with
    | none => none
    | some (item, rest) =>
      match skipSpace rest with
      | ',' :: rest => (parseItems fuel room rest).map fun (items, rest) => (item :: items, rest)
      | ']' :: rest => some ([item], rest)
      | _ => none

/-- The members of an object up to its closing brace; there is at least one. -/
def parseMembers : Nat → Nat → List Char → Option (List (String × Json) × List Char)
  | 0, _, _ => none
  | fuel + 1, room, cs =>
    match skipSpace cs with
    | '"' :: rest =>
      match parseString [] none rest with
      | none => none
      | some (key, rest) =>
        match skipSpace rest with
        | ':' :: rest =>
          match parseValue fuel room rest with
          | none => none
          | some (value, rest) =>
            match skipSpace rest with
            | ',' :: rest =>
              (parseMembers fuel room rest).map fun (members, rest) => ((key, value) :: members, rest)
            | '\x7d' :: rest => some ([(key, value)], rest)
            | _ => none
        | _ => none
    | _ => none

end

/-- The document that fills a text, with at most `room` containers inside each other. -/
def parseWithin? (room : Nat) (text : String) : Option Json :=
  let cs := text.toList
  match parseValue reading (cs.length + 1) room cs with
  | some (json, rest) => if (skipSpace rest).isEmpty then some json else none
  | none => none

end

/-- How many containers may stand inside each other in a file. -/
def nestingLimit : Nat := 127

/-- The document that fills the text of a file. Its decimals are read through a bounded significand. -/
def parseFile? (text : String) : Option Json :=
  parseWithin? Number.readBounded nestingLimit text

/-- The document that fills a text, of any nesting. Its decimals are the nearest doubles. -/
def parse? (text : String) : Option Json :=
  parseWithin? Number.readNearest text.length text

end RuleLang.Json
