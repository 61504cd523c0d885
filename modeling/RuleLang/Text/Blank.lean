/-!
# Blank characters and trimming

A character is blank when it has the Unicode property `White_Space`. `trim` takes the blank
characters off both ends of a text and leaves the inner ones alone.

* `Text.isBlank`: the property, as its list of ranges.
* `Text.trim`: the text between the first and the last character that is not blank.
-/

namespace RuleLang.Text

/-- The Unicode property `White_Space`. -/
def isBlank (c : Char) : Bool :=
  let n := c.toNat
  (0x09 ≤ n && n ≤ 0x0D) || n == 0x20 || n == 0x85 || n == 0xA0 || n == 0x1680 ||
    (0x2000 ≤ n && n ≤ 0x200A) || n == 0x2028 || n == 0x2029 || n == 0x202F || n == 0x205F ||
    n == 0x3000

/-- Drops the blank characters at both ends of a list. -/
def trimChars (cs : List Char) : List Char :=
  ((cs.dropWhile isBlank).reverse.dropWhile isBlank).reverse

/-- Drops the blank characters at both ends of a text. -/
def trim (s : String) : String :=
  String.ofList (trimChars s.toList)

end RuleLang.Text
