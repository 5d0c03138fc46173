/-
# Host names

A host name is compared and sent in lower case and in ASCII. Letters of the Latin,
Greek and Cyrillic scripts, and ASCII written in full width, are brought to lower
case; other characters stay as they are. A label beyond ASCII is written in its
coded form behind the mark `xn--`, and a label with that mark has to be such a form.

Key definitions: `HostName.fold`, `HostName.toAscii?`.
-/
import Brokerage.Http.Parts
import Brokerage.Http.Punycode

namespace Brokerage
namespace Http
namespace HostName

/-- Characters that no host name holds. -/
def isForbidden (c : Char) : Bool :=
  c ≤ ' ' || c == '\x7f' || "#/:<>?@[\\]^|%".toList.contains c

/-- Blanks, controls and characters without a meaning of their own beyond ASCII. -/
def isUnusable (c : Char) : Bool :=
  let n := c.toNat
  (0x80 ≤ n && n ≤ 0xA0) || n == 0x1680 || n == 0x180E || (0x2000 ≤ n && n ≤ 0x200A)
    || (0x200C ≤ n && n ≤ 0x200F) || (0x2028 ≤ n && n ≤ 0x202F) || n == 0x205F
    || (0x2066 ≤ n && n ≤ 0x206F) || n == 0x3000 || (0xE000 ≤ n && n ≤ 0xF8FF)
    || (0xFDD0 ≤ n && n ≤ 0xFDEF) || (0xFFF9 ≤ n && n ≤ 0xFFFF) || 0xE0000 ≤ n

/-- Characters that a host name is read without. -/
def isIgnored (c : Char) : Bool :=
  let n := c.toNat
  n == 0xAD || n == 0x200B || (0x2060 ≤ n && n ≤ 0x2064) || (0xFE00 ≤ n && n ≤ 0xFE0F)
    || n == 0xFEFF

def isDot (c : Char) : Bool :=
  c == '.' || c == '。' || c == '．' || c == '｡'

/-- How far a capital letter is from its small one. -/
def capitalShift (n : Nat) : Nat :=
  if 0x41 ≤ n && n ≤ 0x5A then 32
  else if 0xC0 ≤ n && n ≤ 0xDE then if n == 0xD7 then 0 else 32
  else if 0x391 ≤ n && n ≤ 0x3AB then 32
  else if 0x410 ≤ n && n ≤ 0x42F then 32
  else if 0x400 ≤ n && n ≤ 0x40F then 80
  else if (0x100 ≤ n && n ≤ 0x12F) || (0x134 ≤ n && n ≤ 0x137) || (0x14A ≤ n && n ≤ 0x177)
    || (0x460 ≤ n && n ≤ 0x481) || (0x48A ≤ n && n ≤ 0x4BF) || (0x4D0 ≤ n && n ≤ 0x52F)
    || (0x1E00 ≤ n && n ≤ 0x1E95) || (0x1EA0 ≤ n && n ≤ 0x1EFF) then (n + 1) % 2
  else if (0x139 ≤ n && n ≤ 0x13E) || (0x141 ≤ n && n ≤ 0x148) || (0x179 ≤ n && n ≤ 0x17E) then
    n % 2
  else 0

/-- A character as it is compared. -/
def fold (c : Char) : List Char :=
  if isIgnored c then []
  else if isDot c then ['.']
  else
    let n := c.toNat
    let n := if 0xFF01 ≤ n && n ≤ 0xFF5E then n - 0xFEE0 else n
    [Char.ofNat (n + capitalShift n)]

def splitDots (cs : List Char) : List (List Char) :=
  partsBetween (· == '.') cs

def mark : List Char := ['x', 'n', '-', '-']

/-- A label with the mark has to be what its characters are written as. -/
def isCoded (code : List Char) : Bool :=
  match Punycode.decode? code with
  | none => false
  | some cs =>
    !cs.all Punycode.isAscii && !cs.any isUnusable && cs.flatMap fold == cs
      && Punycode.encode cs == code

def labelToAscii? (label : List Char) : Option (List Char) :=
  let code := label.drop mark.length
  if mark.isPrefixOf label then if isCoded code then some label else none
  else if label.all Punycode.isAscii then some label
  else some (mark ++ Punycode.encode label)

/-- The form of a host name in which it is sent, unless it holds a character that no
host name holds. -/
def toAscii? (cs : List Char) : Option (List Char) := do
  let folded := cs.flatMap fold
  if folded.any fun c => isForbidden c || isUnusable c then none
  else
    let labels ← (splitDots folded).mapM labelToAscii?
    return ['.'].intercalate labels

end HostName
end Http
end Brokerage
