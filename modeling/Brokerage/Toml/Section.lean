/-
# Sections of a configuration

A section is a table of its fields, or an array of their values in the order of
declaration. What a section does not know is passed over.

Key definitions: `Section`, `Section.required`, `Section.optional`,
`Section.withDefault`.
-/
import Brokerage.Toml.Value

namespace Brokerage
namespace Toml

inductive Section where
  | named (entries : List (String × Value))
  | listed (items : List Value)
  deriving Repr

/-- A date can stand for a section without fields. -/
def Section.of? : Value → Option Section
  | .table entries => some (.named entries)
  | .array items => some (.listed items)
  | .moment => some (.named [])
  | _ => none

namespace Section

/-- What is given for a field: by its name, or by its place. -/
def given (s : Section) (place : Nat) (name : String) : Option Value :=
  match s with
  | .named entries => entries.lookup name
  | .listed items => items[place]?

variable {β : Type}

def required (s : Section) (place : Nat) (name : String) (read : Value → Option β) : Option β :=
  (s.given place name).bind read

/-- A field that may be absent from a table, but not from an array. -/
def optional (s : Section) (place : Nat) (name : String) (read : Value → Option β) :
    Option (Option β) :=
  match s.given place name with
  | some v => (read v).map some
  | none =>
    match s with
    | .named _ => some none
    | .listed _ => none

def withDefault (s : Section) (place : Nat) (name : String) (read : Value → Option β)
    (default : β) : Option β :=
  match s.given place name with
  | some v => read v
  | none => some default

end Section

def Value.asText : Value → Option String
  | .text s => some s
  | _ => none

def Value.asBool : Value → Option Bool
  | .bool b => some b
  | _ => none

def Value.asInteger : Value → Option Int
  | .integer n => some n
  | _ => none

/-- An integer from zero up to a bound. -/
def Value.asNatural (bound : Nat) (v : Value) : Option Nat := do
  let n ← v.asInteger
  if 0 ≤ n && n < bound then some n.toNat else none

/-- Integers are taken for amounts too. -/
def Value.asAmount : Value → Option Float
  | .float x => some x
  | .integer n =>
    let x := Float.ofScientific n.natAbs false 0
    some (if n < 0 then -x else x)
  | _ => none

end Toml
end Brokerage
