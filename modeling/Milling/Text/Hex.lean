/-!
Hexadecimal digits and the characters they stand for in escapes.
-/

namespace Milling.Text

def hexDigit? (c : Char) : Option Nat :=
  if '0' ≤ c ∧ c ≤ '9' then some (c.toNat - 48)
  else if 'a' ≤ c ∧ c ≤ 'f' then some (c.toNat - 87)
  else if 'A' ≤ c ∧ c ≤ 'F' then some (c.toNat - 55)
  else none

def hexValue? (digits : List Char) : Option Nat :=
  digits.foldlM (fun n c => (hexDigit? c).map (16 * n + ·)) 0

/-- The character whose code point hexadecimal digits stand for. -/
def hexChar? (digits : List Char) : Option Char :=
  (hexValue? digits).bind fun n => if n.isValidChar then some (Char.ofNat n) else none

end Milling.Text
