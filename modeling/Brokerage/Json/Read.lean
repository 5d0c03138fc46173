/-
# Reading JSON text

Recursive descent over the characters. Every reader gives what it read and, if
the text may go on, the characters that follow. `fuel` bounds the recursion;
`read` gives enough of it for the whole text.

Key definitions: `readText`, `readNumeral`, `readValue`, `read`.
-/
import Brokerage.Digit
import Brokerage.Json.Tree

namespace Brokerage
namespace Json

open Decimal (Numeral)

/-- Blank space between tokens. -/
def isBlank (c : Char) : Bool :=
  c == ' ' || c == '\n' || c == '\t' || c == '\r'

def skipBlank (cs : List Char) : List Char :=
  cs.dropWhile isBlank

/-- A piece of a text: a character, or half of a surrogate pair written as an
escape. -/
inductive Piece where
  | char (c : Char)
  | half (unit : Nat)
  deriving Repr, DecidableEq

/-- The unit that four hexadecimal digits name. -/
def hexUnit? (a b c d : Char) : Option Nat := do
  let a ← hexValue? a
  let b ← hexValue? b
  let c ← hexValue? c
  let d ← hexValue? d
  return ((a * 16 + b) * 16 + c) * 16 + d

def pieceOfUnit (unit : Nat) : Piece :=
  if 0xD800 ≤ unit && unit ≤ 0xDFFF then .half unit else .char (Char.ofNat unit)

/-- The character that a one-letter escape names. -/
def escaped? : Char → Option Char
  | '"' => some '"'
  | '\\' => some '\\'
  | '/' => some '/'
  | 'b' => some '\x08'
  | 'f' => some '\x0c'
  | 'n' => some '\n'
  | 'r' => some '\r'
  | 't' => some '\t'
  | _ => none

/-- Reads up to the closing quote. Control characters must be escaped. -/
def readText : List Char → Option (List Piece × List Char)
  | [] => none
  | '"' :: cs => some ([], cs)
  | '\\' :: 'u' :: a :: b :: c :: d :: cs => do
    let unit ← hexUnit? a b c d
    let (pieces, rest) ← readText cs
    return (pieceOfUnit unit :: pieces, rest)
  | '\\' :: e :: cs => do
    let c ← escaped? e
    let (pieces, rest) ← readText cs
    return (.char c :: pieces, rest)
  | c :: cs => do
    if c < ' ' then none
    let (pieces, rest) ← readText cs
    return (.char c :: pieces, rest)

/-- Joins the halves of surrogate pairs; a half without its partner leaves no
text. -/
def joinHalves : List Piece → Option (List Char)
  | [] => some []
  | .char c :: ps => (joinHalves ps).map (c :: ·)
  | .half high :: .half low :: ps =>
    if high < 0xDC00 && 0xDC00 ≤ low then
      (joinHalves ps).map (Char.ofNat (0x10000 + (high - 0xD800) * 0x400 + (low - 0xDC00)) :: ·)
    else none
  | .half _ :: _ => none

/-- The text of the pieces between two quotes. -/
def wholeText (pieces : List Piece) : Option String :=
  (joinHalves pieces).map String.ofList

/-- A row of digits and what follows it. -/
def readDigits (cs : List Char) : List Nat × List Char :=
  ((cs.takeWhile Char.isDigit).map (·.toNat - 48), cs.dropWhile Char.isDigit)

/-- A point is followed by at least one digit. -/
def readFraction : List Char → Option (List Nat × List Char)
  | '.' :: cs =>
    match readDigits cs with
    | ([], _) => none
    | (digits, rest) => some (digits, rest)
  | cs => some ([], cs)

/-- The exponent after its mark: a sign at most, then at least one digit. -/
def readExponent (cs : List Char) : Option (Int × List Char) :=
  let (negative, cs) : Bool × List Char := match cs with
    | '-' :: cs => (true, cs)
    | '+' :: cs => (false, cs)
    | cs => (false, cs)
  match readDigits cs with
  | ([], _) => none
  | (digits, rest) =>
    let value : Int := Decimal.ofDigits digits
    some (if negative then -value else value, rest)

/-- A numeral: no zero before other digits, no sign but a minus. -/
def readNumeral (cs : List Char) : Option (Numeral × List Char) := do
  let (negative, cs) : Bool × List Char := match cs with
    | '-' :: cs => (true, cs)
    | cs => (false, cs)
  let (whole, cs) ← match readDigits cs with
    | ([], _) => none
    | (0 :: _ :: _, _) => none
    | read => some read
  let (fraction, cs) ← readFraction cs
  match cs with
  | 'e' :: cs | 'E' :: cs =>
    let (exponent, cs) ← readExponent cs
    return (⟨negative, whole, fraction, exponent, false⟩, cs)
  | _ => return (⟨negative, whole, fraction, 0, fraction.isEmpty⟩, cs)

mutual

/-- Reads one value. -/
def readValue : Nat → List Char → Tree × Option (List Char)
  | 0, _ => (.broken, none)
  | fuel + 1, cs =>
    match skipBlank cs with
    | 'n' :: 'u' :: 'l' :: 'l' :: cs => (.null, some cs)
    | 't' :: 'r' :: 'u' :: 'e' :: cs => (.bool true, some cs)
    | 'f' :: 'a' :: 'l' :: 's' :: 'e' :: cs => (.bool false, some cs)
    | '"' :: cs =>
      match readText cs with
      | some (pieces, rest) => (.text (wholeText pieces), some rest)
      | none => (.broken, none)
    | '[' :: cs =>
      match skipBlank cs with
      | ']' :: rest => (.array [] true, some rest)
      | cs =>
        let (items, rest) := readItems fuel cs
        (.array items rest.isSome, rest)
    | '\x7b' :: cs =>
      match skipBlank cs with
      | '\x7d' :: rest => (.object [] true, some rest)
      | cs =>
        let (members, rest) := readMembers fuel cs
        (.object members rest.isSome, rest)
    | cs =>
      match readNumeral cs with
      | some (n, rest) => (.number n, some rest)
      | none => (.broken, none)

/-- Reads the items of an array that is not empty, and its end. -/
def readItems : Nat → List Char → List Tree × Option (List Char)
  | 0, _ => ([], none)
  | fuel + 1, cs =>
    match readValue fuel cs with
    | (item, none) => ([item], none)
    | (item, some cs) =>
      match skipBlank cs with
      | ',' :: cs =>
        match skipBlank cs with
        | ']' :: _ => ([item], none)
        | cs =>
          let (items, rest) := readItems fuel cs
          (item :: items, rest)
      | ']' :: rest => ([item], some rest)
      | _ => ([item], none)

/-- Reads the members of an object that is not empty, and its end. -/
def readMembers : Nat → List Char → List Member × Option (List Char)
  | 0, _ => ([], none)
  | fuel + 1, cs =>
    match skipBlank cs with
    | '"' :: cs =>
      match readText cs with
      | none => ([], none)
      | some (pieces, cs) =>
        match skipBlank cs with
        | ':' :: cs =>
          match readValue fuel cs with
          | (value, none) => ([(wholeText pieces, value)], none)
          | (value, some cs) =>
            match skipBlank cs with
            | ',' :: cs =>
              let (members, rest) := readMembers fuel cs
              ((wholeText pieces, value) :: members, rest)
            | '\x7d' :: rest => ([(wholeText pieces, value)], some rest)
            | _ => ([(wholeText pieces, value)], none)
        | _ => ([(wholeText pieces, .broken)], none)
    | _ => ([], none)

end

/-- The tree of a whole text, and whether nothing but blank space follows it. -/
def read (s : String) : Tree × Bool :=
  let cs := s.toList
  let (tree, rest) := readValue (2 * cs.length + 2) cs
  (tree, (rest.map fun cs => (skipBlank cs).isEmpty).getD false)

end Json
end Brokerage
