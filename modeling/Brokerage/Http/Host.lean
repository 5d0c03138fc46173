/-
# Hosts

The host of an address is a name, four bytes or eight groups of two bytes. Whatever
ends like a number is taken for four bytes, which may be written in up to four
numbers: decimal, octal after `0`, hexadecimal after `0x`; the last of them fills
what is left. Eight groups stand between brackets; a row of zero groups may be left
out, and the last two may be written as four bytes.

Key definitions: `Host`, `Host.ofText?`, `Host.text`.
-/
import Brokerage.Http.HostName
import Brokerage.Http.Percent

namespace Brokerage
namespace Http

inductive Host where
  | name (text : String)
  /-- The four bytes as one number. -/
  | bytes (value : Nat)
  | groups (values : List Nat)
  deriving DecidableEq, Repr

namespace Host

/-- A number in the base that it tells. A mark with nothing after it is zero. -/
def number? : List Char → Option Nat
  | [] => none
  | '0' :: 'x' :: cs => spelled? 16 cs
  | '0' :: 'X' :: cs => spelled? 16 cs
  | '0' :: c :: cs => spelled? 8 (c :: cs)
  | cs => spelled? 10 cs

/-- The parts between dots, without an empty one at the end. -/
def partsOf (cs : List Char) : List (List Char) :=
  let parts := HostName.splitDots cs
  if parts.getLast? == some [] then parts.dropLast else parts

def endsInNumber (cs : List Char) : Bool :=
  match (partsOf cs).getLast? with
  | none => false
  | some part => !part.isEmpty && (part.all Char.isDigit || (number? part).isSome)

/-- The number of the bytes that the parts spell: each part but the last is a
byte. -/
def bytes? (parts : List (List Char)) : Option Nat := do
  let numbers ← parts.mapM number?
  let last ← numbers.getLast?
  let first := numbers.dropLast
  let room ← [4294967296, 16777216, 65536, 256][first.length]?
  if last < room && first.all (· < 256) then
    some ((first.zip [16777216, 65536, 256]).foldl (fun n e => n + e.1 * e.2) last)
  else none

/-- The value of a byte written in decimal without a zero before it. -/
def plainByte? (cs : List Char) : Option Nat := do
  let n ← if cs.isEmpty then none else spelled? 10 cs
  if n < 256 && (cs.length == 1 || cs.head? != some '0') then some n else none

/-- The groups that a part between colons spells: one, or two where it is written as
four bytes. -/
def groupsOfPart? (mayBeBytes : Bool) (cs : List Char) : Option (List Nat) :=
  if mayBeBytes && cs.contains '.' then do
    match ← (HostName.splitDots cs).mapM plainByte? with
    | [a, b, c, d] => some [a * 256 + b, c * 256 + d]
    | _ => none
  else if cs.isEmpty || cs.length > 4 then none
  else (spelled? 16 cs).map fun n => [n]

/-- The groups that stand between colons; the last part may be four bytes. -/
def groupsIn? (mayEndInBytes : Bool) (cs : List Char) : Option (List Nat) := do
  if cs.isEmpty then some []
  else
    let parts := partsBetween (· == ':') cs
    let first ← parts.dropLast.mapM (groupsOfPart? false)
    let last ← groupsOfPart? mayEndInBytes (parts.getLast?.getD [])
    return first.flatten ++ last

/-- Splits at the first two colons in a row. -/
def splitGap : List Char → Option (List Char × List Char)
  | ':' :: ':' :: cs => some ([], cs)
  | c :: cs => (splitGap cs).map fun (before, after) => (c :: before, after)
  | [] => none

/-- Eight groups; a gap stands for one zero group or more. -/
def groups? (cs : List Char) : Option (List Nat) :=
  match splitGap cs with
  | none => (groupsIn? true cs).filter (·.length == 8)
  | some (before, after) => do
    let before ← groupsIn? false before
    let after ← groupsIn? true after
    let count := before.length + after.length
    if count < 8 then some (before ++ List.replicate (8 - count) 0 ++ after) else none

/-- The host that a text names. -/
def ofText? (cs : List Char) : Option Host :=
  match cs with
  | '[' :: cs =>
    if cs.getLast? == some ']' then (groups? cs.dropLast).map .groups else none
  | cs => do
    let name ← HostName.toAscii? (← decode? cs)
    if name.isEmpty then none
    else if endsInNumber name then (bytes? (partsOf name)).map .bytes
    else some (.name (String.ofList name))

def hexText (n : Nat) : String :=
  String.ofList (Nat.toDigits 16 n)

/-- Where the longest row of zero groups begins, the first of several, and its
length. A single zero group is no row. -/
def zeroRow (values : List Nat) : Nat × Nat :=
  (List.range values.length).foldl (fun best start =>
    let length := ((values.drop start).takeWhile (· == 0)).length
    if length > best.2 then (start, length) else best) (0, 1)

def groupsText (values : List Nat) : String :=
  let text (values : List Nat) := ":".intercalate (values.map hexText)
  match zeroRow values with
  | (_, 1) => text values
  | (start, length) => text (values.take start) ++ "::" ++ text (values.drop (start + length))

def text : Host → String
  | .name text => text
  | .bytes n =>
    ".".intercalate ([n / 16777216, n / 65536 % 256, n / 256 % 256, n % 256].map toString)
  | .groups values => "[" ++ groupsText values ++ "]"

end Host
end Http
end Brokerage
