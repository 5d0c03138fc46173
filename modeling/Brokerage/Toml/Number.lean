/-
# TOML numbers, dates and times

Digits may be grouped by single underscores. Integers fit a signed 64-bit word; a
float too large for a double is refused, unless it is negative.

Key definitions: `integer`, `pointed`, `moment`, `number`.
-/
import Brokerage.Decimal.Numeral
import Brokerage.Toml.Text
import Brokerage.Toml.Value

namespace Brokerage
namespace Toml

open Decimal (Numeral)

/-- One or more digits, grouped by single underscores. -/
def groupedDigits (digit? : Char → Option Nat) : List Char → Option (Rest (List Nat))
  | [] => none
  | c :: cs =>
    match digit? c with
    | none => none
    | some d =>
      match cs with
      | '_' :: cs => (groupedDigits digit? cs).map fun (ds, rest) => (d :: ds, rest)
      | cs =>
        match groupedDigits digit? cs with
        | some (ds, rest) => some (d :: ds, rest)
        | none =>
          match cs with
          | c :: _ => if (digit? c).isSome then none else some ([d], cs)
          | [] => some ([d], cs)

def decimalDigit? (c : Char) : Option Nat :=
  if c.isDigit then some (c.toNat - 48) else none

def sign : List Char → Bool × List Char
  | '-' :: cs => (true, cs)
  | '+' :: cs => (false, cs)
  | cs => (false, cs)

/-- The whole part of a number: a sign, and no zero before other digits. -/
def wholePart (cs : List Char) : Option (Rest (Bool × List Nat)) :=
  let (negative, cs) := sign cs
  match cs with
  | '0' :: cs => some ((negative, [0]), cs)
  | cs => (groupedDigits decimalDigit? cs).map fun (ds, rest) => ((negative, ds), rest)

def inWord (n : Int) : Option Int :=
  if Int64.minValue.toInt ≤ n && n ≤ Int64.maxValue.toInt then some n else none

/-- An integer to another base, after its mark. -/
def basedInteger (base : Nat) (cs : List Char) : Option (Rest Int) := do
  let (ds, rest) ← groupedDigits (digitBelow? base) cs
  let n ← inWord (ds.foldl (fun n d => base * n + d) 0 : Nat)
  return (n, rest)

def integer : List Char → Option (Rest Int)
  | '0' :: 'x' :: cs => basedInteger 16 cs
  | '0' :: 'o' :: cs => basedInteger 8 cs
  | '0' :: 'b' :: cs => basedInteger 2 cs
  | cs => do
    let ((negative, ds), rest) ← wholePart cs
    let value : Int := Decimal.ofDigits ds
    let n ← inWord (if negative then -value else value)
    return (n, rest)

/-- The exponent after its mark. -/
def exponentPart (cs : List Char) : Option (Rest Int) := do
  let (negative, cs) := sign cs
  let (ds, rest) ← groupedDigits decimalDigit? cs
  let value : Int := Decimal.ofDigits ds
  return (if negative then -value else value, rest)

/-- An exponent, if there is one. -/
def exponent? : List Char → Option (Rest Int)
  | 'e' :: cs | 'E' :: cs => exponentPart cs
  | cs => some (0, cs)

/-- A number with a point or an exponent; nothing if it has neither. -/
def pointed (cs : List Char) : Option (Option (Rest Numeral)) :=
  match wholePart cs with
  | none => none
  | some ((negative, whole), '.' :: cs) => some do
    let (fraction, cs) ← groupedDigits decimalDigit? cs
    let (exponent, rest) ← exponent? cs
    return (⟨negative, whole, fraction, exponent, false⟩, rest)
  | some ((negative, whole), 'e' :: cs) | some ((negative, whole), 'E' :: cs) =>
    some ((exponentPart cs).map fun (exponent, rest) =>
      (⟨negative, whole, [], exponent, false⟩, rest))
  | some _ => none

/-- The infinities and the undefined number have names. -/
def special (cs : List Char) : Option (Rest Float) :=
  let (negative, cs) := sign cs
  match cs with
  | 'i' :: 'n' :: 'f' :: cs => some (if negative then -1.0 / 0.0 else 1.0 / 0.0, cs)
  | 'n' :: 'a' :: 'n' :: cs => some (0.0 / 0.0, cs)
  | _ => none

/-- The double of a numeral, unless it is too large. -/
def bounded (n : Numeral) : Option Float :=
  let x := n.nearest
  if x == 1.0 / 0.0 then none else some x

/-! ### Dates and times -/

/-- A number of exactly `count` digits between two bounds. -/
def digitsBetween (count low high : Nat) (cs : List Char) : Option (Rest Nat) :=
  let ds := cs.take count
  if ds.length == count && ds.all Char.isDigit then
    let n := Decimal.ofDigits (ds.map (·.toNat - 48))
    if low ≤ n && n ≤ high then some (n, cs.drop count) else none
  else none

def mark (c : Char) : List Char → Option (List Char)
  | d :: cs => if d = c then some cs else none
  | [] => none

def daysIn (year month : Nat) : Nat :=
  if month == 2 then
    if (year % 4 == 0 && year % 100 != 0) || year % 400 == 0 then 29 else 28
  else if month == 4 || month == 6 || month == 9 || month == 11 then 30
  else 31

def day (cs : List Char) : Option (List Char) := do
  let (year, cs) ← digitsBetween 4 0 9999 cs
  let cs ← mark '-' cs
  let (month, cs) ← digitsBetween 2 1 12 cs
  let cs ← mark '-' cs
  let (_, cs) ← digitsBetween 2 1 (daysIn year month) cs
  return cs

/-- A time of day; a minute may have a leap second. -/
def timeOfDay (cs : List Char) : Option (List Char) := do
  let (_, cs) ← digitsBetween 2 0 23 cs
  let cs ← mark ':' cs
  let (_, cs) ← digitsBetween 2 0 59 cs
  let cs ← mark ':' cs
  let (_, cs) ← digitsBetween 2 0 60 cs
  match cs with
  | '.' :: cs =>
    if (cs.takeWhile Char.isDigit).isEmpty then none else some (cs.dropWhile Char.isDigit)
  | cs => some cs

/-- The offset of a time from universal time, if it has one. -/
def offset : List Char → Option (List Char)
  | 'Z' :: cs | 'z' :: cs => some cs
  | '+' :: cs | '-' :: cs => do
    let (_, cs) ← digitsBetween 2 0 23 cs
    let cs ← mark ':' cs
    let (_, cs) ← digitsBetween 2 0 59 cs
    return cs
  | cs => some cs

/-- A date, a time of day, or both. -/
def moment (cs : List Char) : Option (List Char) :=
  match day cs with
  | none => timeOfDay cs
  | some rest =>
    match rest with
    | 'T' :: cs | 't' :: cs | ' ' :: cs =>
      match timeOfDay cs with
      | some cs => offset cs
      | none => some rest
    | _ => some rest

/-- Anything that begins with a sign or a digit, or the name of a float. -/
def number (cs : List Char) : Option (Rest Value) :=
  match moment cs with
  | some rest => some (.moment, rest)
  | none =>
    match special cs with
    | some (x, rest) => some (.float x, rest)
    | none =>
      match pointed cs with
      | some read => read.bind fun (n, rest) => (bounded n).map fun x => (.float x, rest)
      | none => (integer cs).map fun (n, rest) => (.integer n, rest)

end Toml
end Brokerage
