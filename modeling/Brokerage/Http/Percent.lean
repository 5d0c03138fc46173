/-
# Percent signs

What an address cannot hold as it is, it holds as the bytes of its UTF-8 form, each
written as a percent sign and two hexadecimal digits.

Key definitions: `percent`, `encode`, `encodeAll`, `bytesOf`, `decode?`.
-/
import Brokerage.Digit

namespace Brokerage
namespace Http

def upperHex (n : Nat) : Char :=
  if n < 10 then Char.ofNat (48 + n) else Char.ofNat (55 + n)

/-- A byte as a percent sign and two digits. -/
def percent (b : UInt8) : List Char :=
  ['%', upperHex (b.toNat / 16), upperHex (b.toNat % 16)]

def isPrintable (c : Char) : Bool :=
  ' ' ≤ c && c ≤ '~'

def utf8 (c : Char) : List UInt8 :=
  c.toString.toUTF8.toList

/-- A character as it is, or as its bytes if it is among `special` or not a
printable ASCII one. -/
def encode (special : List Char) (c : Char) : List Char :=
  if isPrintable c && !special.contains c then [c]
  else (utf8 c).flatMap percent

def encodeAll (special : List Char) (cs : List Char) : List Char :=
  cs.flatMap (encode special)

/-- The bytes of a text in which some stand behind percent signs. A percent sign
without two digits is one itself. -/
def bytesOf : List Char → List UInt8
  | '%' :: a :: b :: cs =>
    match hexValue? a, hexValue? b with
    | some high, some low => UInt8.ofNat (16 * high + low) :: bytesOf cs
    | _, _ => utf8 '%' ++ bytesOf (a :: b :: cs)
  | c :: cs => utf8 c ++ bytesOf cs
  | [] => []

/-- The text of those bytes, if they are one. -/
def decode? (cs : List Char) : Option (List Char) :=
  (String.fromUTF8? ⟨(bytesOf cs).toArray⟩).map String.toList

end Http
end Brokerage
