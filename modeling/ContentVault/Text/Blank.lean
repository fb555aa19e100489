/-!
# Blank characters

The characters of Unicode's White_Space property, and cutting them off at both
ends of a text.
-/

namespace ContentVault.Text

/-- Whether the character has Unicode's White_Space property. -/
def isBlank (c : Char) : Bool :=
  let n := c.toNat
  (9 ≤ n && n ≤ 13) || n == 0x20 || n == 0x85 || n == 0xa0 || n == 0x1680 ||
    (0x2000 ≤ n && n ≤ 0x200a) || n == 0x2028 || n == 0x2029 || n == 0x202f ||
    n == 0x205f || n == 0x3000

/-- The characters without the blanks at their beginning and at their end. -/
def trimBlanks (text : List Char) : List Char :=
  ((text.dropWhile isBlank).reverse.dropWhile isBlank).reverse

end ContentVault.Text
