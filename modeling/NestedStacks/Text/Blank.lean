/-
Blank characters at the ends of a text.

* `isBlankChar` — the characters with the Unicode property `White_Space`;
* `trim` — a text without blanks at its ends.
-/

namespace NestedStacks.Text

/-- The characters with the Unicode property `White_Space`. -/
def isBlankChar (c : Char) : Bool :=
  let n := c.toNat
  (0x09 ≤ n && n ≤ 0x0d) || n == 0x20 || n == 0x85 || n == 0xa0 || n == 0x1680
    || (0x2000 ≤ n && n ≤ 0x200a) || n == 0x2028 || n == 0x2029 || n == 0x202f || n == 0x205f
    || n == 0x3000

/-- The characters without blanks in front. -/
def dropBlanks (cs : List Char) : List Char := cs.dropWhile isBlankChar

/-- A text without blanks at its ends. -/
def trim (s : String) : String :=
  String.ofList (dropBlanks (dropBlanks s.toList).reverse).reverse

example : trim " \u00a0a b\n\u3000" = "a b" := by decide +kernel
example : trim "\u200b" = "\u200b" := by decide +kernel

end NestedStacks.Text
