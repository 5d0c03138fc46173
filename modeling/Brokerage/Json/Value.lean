/-
# JSON values and their text

A `Value` is what the library writes. Its text is compact; an amount is written with
the fewest digits that read back, and one that is not finite as `null`.

Key definitions: `Value`, `Value.render`, `Value.sortKeys`.
-/
import Brokerage.Decimal.Layout

namespace Brokerage
namespace Json

open Decimal (Layout)

inductive Value where
  | null
  | bool (b : Bool)
  | integer (n : Int)
  | amount (x : Float)
  | text (s : String)
  | array (items : List Value)
  | object (members : List (String × Value))
  deriving Repr, Inhabited

/-- Amounts in JSON: positional from 0.00001 up to 16 digits, whole numbers keep
`.0`, and the sign of an exponent is always written. -/
def amounts : Layout where
  positional := fun e => -5 ≤ e && e < 16
  pointZero := true
  exponentPlus := true
  tie := .toEven

def renderAmount (x : Float) : String :=
  if x.isFinite then Decimal.write amounts x else "null"

def hexDigit (n : Nat) : Char :=
  if n < 10 then Char.ofNat (48 + n) else Char.ofNat (87 + n)

/-- A character inside a text: the quote, the backslash and the control
characters are escaped, everything else stands for itself. -/
def escape (c : Char) : List Char :=
  match c with
  | '"' => ['\\', '"']
  | '\\' => ['\\', '\\']
  | '\x08' => ['\\', 'b']
  | '\x0c' => ['\\', 'f']
  | '\n' => ['\\', 'n']
  | '\r' => ['\\', 'r']
  | '\t' => ['\\', 't']
  | c =>
    if c < ' ' then ['\\', 'u', '0', '0', hexDigit (c.toNat / 16), hexDigit (c.toNat % 16)]
    else [c]

def renderText (s : String) : String :=
  "\"" ++ String.ofList (s.toList.flatMap escape) ++ "\""

mutual

def Value.render : Value → String
  | .null => "null"
  | .bool b => if b then "true" else "false"
  | .integer n => toString n
  | .amount x => renderAmount x
  | .text s => renderText s
  | .array items => "[" ++ ",".intercalate (renderItems items) ++ "]"
  | .object members => "\x7b" ++ ",".intercalate (renderMembers members) ++ "\x7d"

def renderItems : List Value → List String
  | [] => []
  | v :: vs => v.render :: renderItems vs

def renderMembers : List (String × Value) → List String
  | [] => []
  | (name, v) :: ms => (renderText name ++ ":" ++ v.render) :: renderMembers ms

end

/-- Puts a member in its place among members sorted by name; a member of the same
name is replaced. -/
def insertSorted (name : String) (v : Value) : List (String × Value) → List (String × Value)
  | [] => [(name, v)]
  | (other, w) :: ms =>
    if name < other then (name, v) :: (other, w) :: ms
    else if other < name then (other, w) :: insertSorted name v ms
    else (name, v) :: ms

mutual

/-- The same value with the members of every object sorted by name. -/
def Value.sortKeys : Value → Value
  | .array items => .array (sortKeysItems items)
  | .object members => .object (sortKeysMembers members)
  | v => v

def sortKeysItems : List Value → List Value
  | [] => []
  | v :: vs => v.sortKeys :: sortKeysItems vs

def sortKeysMembers : List (String × Value) → List (String × Value)
  | [] => []
  | (name, v) :: ms => insertSorted name v.sortKeys (sortKeysMembers ms)

end

/-- A value that may be absent. -/
def Value.ofOption {β : Type} (f : β → Value) : Option β → Value
  | none => .null
  | some b => f b

/-- A member that is left out when absent. -/
def optionalMember {β : Type} (name : String) (f : β → Value) : Option β → List (String × Value)
  | none => []
  | some b => [(name, f b)]

end Json
end Brokerage
