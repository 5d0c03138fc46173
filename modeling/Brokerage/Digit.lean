/-
# Digits

The values of digits in bases up to sixteen, the numbers that rows of them spell,
and the characters that such numbers name.

Key definitions: `hexValue?`, `digitBelow?`, `spelled?`, `scalar?`.
-/
namespace Brokerage

def hexValue? (c : Char) : Option Nat :=
  if '0' ≤ c && c ≤ '9' then some (c.toNat - 48)
  else if 'a' ≤ c && c ≤ 'f' then some (c.toNat - 87)
  else if 'A' ≤ c && c ≤ 'F' then some (c.toNat - 55)
  else none

/-- A digit below the base. -/
def digitBelow? (base : Nat) (c : Char) : Option Nat :=
  (hexValue? c).filter (· < base)

/-- The number that digits below the base spell. No digits spell zero. -/
def spelled? (base : Nat) (cs : List Char) : Option Nat :=
  cs.foldlM (fun n c => (digitBelow? base c).map (base * n + ·)) 0

/-- The character of a number, unless it is half of a surrogate pair or beyond the
last one. -/
def scalar? (n : Nat) : Option Char :=
  if n < 0xD800 || (0xDFFF < n && n < 0x110000) then some (Char.ofNat n) else none

end Brokerage
