/-!
# Quoted text

Three ways to write a text between quotes.

* `Text.jsonQuoted`: a JSON string; only the quote, the backslash and control characters are
  escaped.
* `Text.displayQuoted`: the form used when a tree is shown to a person; control characters above
  the ASCII range are escaped too, with their code in braces.
* `Text.sqlQuoted`: a SQL string; a single quote inside is written twice.
-/

namespace RuleLang.Text

/-- The hexadecimal digits of `n`, lower case. -/
def hexDigits (n : Nat) : List Char :=
  Nat.toDigits 16 n

/-- The hexadecimal digits of `n`, lower case, filled with zeros to four places. -/
def hexDigits4 (n : Nat) : List Char :=
  let digits := hexDigits n
  List.replicate (4 - digits.length) '0' ++ digits

/-- How a character stands inside a JSON string. -/
def jsonEscape (c : Char) : List Char :=
  if c = '"' then ['\\', '"']
  else if c = '\\' then ['\\', '\\']
  else if c = '\x08' then ['\\', 'b']
  else if c = '\x0c' then ['\\', 'f']
  else if c = '\n' then ['\\', 'n']
  else if c = '\r' then ['\\', 'r']
  else if c = '\t' then ['\\', 't']
  else if c.toNat < 0x20 then '\\' :: 'u' :: hexDigits4 c.toNat
  else [c]

/-- A text as a JSON string, quotes included. -/
def jsonQuoted (s : String) : String :=
  String.ofList ('"' :: s.toList.flatMap jsonEscape ++ ['"'])

/-- How a character stands inside a displayed string literal. -/
def displayEscape (c : Char) : List Char :=
  if c = '"' then ['\\', '"']
  else if c = '\\' then ['\\', '\\']
  else if c = '\x00' then ['\\', '0']
  else if c = '\t' then ['\\', 't']
  else if c = '\n' then ['\\', 'n']
  else if c = '\r' then ['\\', 'r']
  else if c.toNat < 0x20 || (0x7f ≤ c.toNat && c.toNat ≤ 0x9f) then
    '\\' :: 'u' :: '\x7b' :: hexDigits c.toNat ++ ['\x7d']
  else [c]

/-- A text as a displayed string literal, quotes included. -/
def displayQuoted (s : String) : String :=
  String.ofList ('"' :: s.toList.flatMap displayEscape ++ ['"'])

/-- How a character stands inside a SQL string. -/
def sqlEscape (c : Char) : List Char :=
  if c = '\'' then ['\'', '\''] else [c]

/-- A text as a SQL string, quotes included. -/
def sqlQuoted (s : String) : String :=
  String.ofList ('\'' :: s.toList.flatMap sqlEscape ++ ['\''])

end RuleLang.Text
