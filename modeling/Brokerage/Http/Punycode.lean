/-
# Labels beyond ASCII

A label of a host name is sent in ASCII. Its ASCII characters come first, then a
hyphen if there were any; the others follow in ascending order, each as the number
of places and values passed over since the one before. Such a number has digits in
base 36, the lowest first, and ends with the first digit below the threshold of its
place. The thresholds follow the numbers written so far.

Key definitions: `Punycode.encode`, `Punycode.decode?`.
-/
import Brokerage.Digit

namespace Brokerage
namespace Http
namespace Punycode

def isAscii (c : Char) : Bool :=
  c.toNat < 128

def digit (d : Nat) : Char :=
  if d < 26 then Char.ofNat (97 + d) else Char.ofNat (22 + d)

def digitValue? (c : Char) : Option Nat :=
  if 'a' ≤ c && c ≤ 'z' then some (c.toNat - 97)
  else if '0' ≤ c && c ≤ '9' then some (c.toNat - 22)
  else none

def threshold (place bias : Nat) : Nat :=
  max 1 (min 26 (place - bias))

theorem one_le_threshold (place bias : Nat) : 1 ≤ threshold place bias :=
  Nat.le_max_left _ _

/-- Shrinks a number until it is moderate, and counts 36 for each time. -/
def shrink (n : Nat) : Nat × Nat :=
  if 455 < n then
    let (m, places) := shrink (n / 35)
    (m, places + 36)
  else (n, 0)
termination_by n

/-- The bias after a number was written as the `points`th. -/
def adapt (n points : Nat) (first : Bool) : Nat :=
  let n := if first then n / 700 else n / 2
  let (m, places) := shrink (n + n / points)
  places + 36 * m / (m + 38)

def writeNumber (bias place n : Nat) : List Char :=
  let t := threshold place bias
  if n < t then [digit n]
  else digit (t + (n - t) % (36 - t)) :: writeNumber bias (place + 36) ((n - t) / (36 - t))
termination_by n
decreasing_by
  have := one_le_threshold place bias
  exact Nat.lt_of_le_of_lt (Nat.div_le_self _ _) (by omega)

/-- What was written so far, the places passed over since, the bias, and the number
of characters done. -/
structure Coding where
  out : List Char
  passed : Nat
  bias : Nat
  done : Nat

/-- Passes a character over, or writes it if its turn has come. -/
def Coding.pass (basic value : Nat) (k : Coding) (c : Char) : Coding :=
  if c.toNat < value then { k with passed := k.passed + 1 }
  else if c.toNat == value then
    ⟨k.out ++ writeNumber k.bias 36 k.passed, 0,
      adapt k.passed (k.done + 1) (k.done == basic), k.done + 1⟩
  else k

/-- Writes the characters of the given values, in ascending order, from a value
on. -/
def encodeFrom (cs : List Char) (basic : Nat) : List Nat → Nat → Coding → List Char
  | [], _, k => k.out
  | value :: values, start, k =>
    let k := { k with passed := k.passed + (value - start) * (k.done + 1) }
    let k := cs.foldl (Coding.pass basic value) k
    encodeFrom cs basic values (value + 1) { k with passed := k.passed + 1 }

def encode (cs : List Char) : List Char :=
  let basic := cs.filter isAscii
  let values := ((cs.filter (!isAscii ·)).map Char.toNat).mergeSort.eraseDups
  basic ++ (if basic.isEmpty then [] else ['-'])
    ++ encodeFrom cs basic.length values 128 ⟨[], 0, 72, basic.length⟩

/-- A number and the characters after it. -/
def readNumber (bias : Nat) : List Char → Nat → Nat → Option (Nat × List Char)
  | [], _, _ => none
  | c :: cs, place, weight =>
    match digitValue? c with
    | none => none
    | some d =>
      let t := threshold place bias
      if d < t then some (d * weight, cs)
      else (readNumber bias cs (place + 36) (weight * (36 - t))).map fun (n, rest) =>
        (d * weight + n, rest)

/-- Puts in the characters that numbers tell of. `fuel` bounds their count. -/
def decodeFrom (bias value place : Nat) (out : List Char) : Nat → List Char → Option (List Char)
  | _, [] => some out
  | 0, _ => none
  | fuel + 1, cs => do
    let (n, cs) ← readNumber bias cs 36 1
    let points := out.length + 1
    let value := value + (place + n) / points
    let c ← scalar? value
    let place' := (place + n) % points
    decodeFrom (adapt n points (place == 0)) value (place' + 1)
      (out.take place' ++ c :: out.drop place') fuel cs

/-- The characters of a label; what stands before its last hyphen is as it is. -/
def decode? (cs : List Char) : Option (List Char) :=
  let tail := (cs.reverse.takeWhile (· != '-')).reverse
  let basic := cs.take (cs.length - tail.length - 1)
  decodeFrom 72 128 0 basic tail.length tail

end Punycode
end Http
end Brokerage
