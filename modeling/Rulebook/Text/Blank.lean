/-!
# White space

The characters with the property of white space, and text without such
characters at its ends.
-/

namespace Rulebook

/-- Whether a character is white space. -/
def isWhiteSpace (c : Char) : Bool :=
  let n := c.toNat
  (9 ≤ n && n ≤ 13) || n == 0x20 || n == 0x85 || n == 0xA0 || n == 0x1680 ||
    (0x2000 ≤ n && n ≤ 0x200A) || n == 0x2028 || n == 0x2029 || n == 0x202F ||
    n == 0x205F || n == 0x3000

/-- Characters without white space at their beginning. -/
def trimStart (cs : List Char) : List Char := cs.dropWhile isWhiteSpace

/-- Characters without white space at either end. -/
def trim (cs : List Char) : List Char := (trimStart (trimStart cs).reverse).reverse

end Rulebook
