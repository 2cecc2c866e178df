/-!
Blank characters: the Unicode property White_Space, and trimming by it.

A line of a program is read after blanks are trimmed from both ends, so a carriage return, a
no-break space or an ideographic space at the end of a line never reaches a word.
-/

namespace Milling.Text

/-- The characters with the property White_Space. The zero-width space and the byte order mark do
not have it. -/
def isBlank (c : Char) : Bool :=
  let n := c.toNat
  (0x09 ≤ n && n ≤ 0x0D) || n == 0x20 || n == 0x85 || n == 0xA0 || n == 0x1680 ||
    (0x2000 ≤ n && n ≤ 0x200A) || n == 0x2028 || n == 0x2029 || n == 0x202F || n == 0x205F ||
    n == 0x3000

def trimLeft (s : List Char) : List Char :=
  s.dropWhile isBlank

def trimRight (s : List Char) : List Char :=
  (s.reverse.dropWhile isBlank).reverse

def trim (s : List Char) : List Char :=
  trimRight (trimLeft s)

end Milling.Text
