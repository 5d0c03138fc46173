/-
# Records in exchanged messages

A record is written as an object of its fields, or as an array of their values in
the order of declaration. Reading goes through the text in order and stops at the
first fault: a value of the wrong kind and a field given twice are noticed where
they stand, a missing field at the end of the object. Members that the record
does not know are passed over.

A form lists the declared fields; `Form.read` reads a record by it.

Key definitions: `Fault`, `Field`, `Form`, `Form.read`, `Form.readBeside`.
-/
import Brokerage.Json.Tree
import Brokerage.Order
import Brokerage.Table

namespace Brokerage
namespace Wire

open Json (Tree Member)

/-- Why a message cannot be taken. -/
inductive Fault where
  /-- The text breaks a rule of the grammar, or a value is of the wrong kind. -/
  | unreadable
  | missing (field : String)
  | duplicate (field : String)
  | unknownName (name : String) (expected : List String)
  /-- The message has none of the forms of a session request. -/
  | noRequestForm
  | badOrder (fault : OrderFault Float)
  deriving Repr

def quoted (name : String) : String :=
  "\x60" ++ name ++ "\x60"

/-- What is said about a fault; about a text that cannot be read nothing is. -/
def Fault.message? : Fault → Option String
  | .unreadable => none
  | .missing field => some ("missing field " ++ quoted field)
  | .duplicate field => some ("duplicate field " ++ quoted field)
  | .unknownName name expected =>
    some ("unknown variant " ++ quoted name ++ ", expected one of "
      ++ ", ".intercalate (expected.map quoted))
  | .noRequestForm => some "data did not match any variant of untagged enum InitRequest"
  | .badOrder fault => some fault.message

abbrev Reader (β : Type) := Tree → Except Fault β

/-- One declared field. `absent` is its value when it is not given; a field
without one is required. -/
structure Field (β : Type) where
  name : String
  alias? : Option String
  read : Reader β
  absent : Option β

def Field.answersTo {β : Type} (f : Field β) (name : String) : Bool :=
  f.name == name || f.alias? == some name

def required {β : Type} (name : String) (read : Reader β) : Field β :=
  ⟨name, none, read, none⟩

def optional {β : Type} (name : String) (read : Reader β) (absent : β) : Field β :=
  ⟨name, none, read, some absent⟩

/-- The declared fields of a record, in order. -/
inductive Form : Type → Type 1 where
  | one {β : Type} (field : Field β) : Form β
  | both {β γ : Type} (first : Form β) (second : Form γ) : Form (β × γ)

namespace Form

/-- What has been read of each field so far. -/
@[reducible] def Slots : {β : Type} → Form β → Type
  | β, .one _ => Option β
  | _, .both first second => first.Slots × second.Slots

def blank : {β : Type} → (f : Form β) → f.Slots
  | _, .one _ => none
  | _, .both first second => (first.blank, second.blank)

/-- Enters a member into its field; nothing if no field has its name. A field
that is filled already is a fault before the value is looked at. -/
def offer : {β : Type} → (f : Form β) → String → Tree → f.Slots → Option (Except Fault f.Slots)
  | _, .one field, name, value, slot =>
    if field.answersTo name then
      match slot with
      | some _ => some (.error (.duplicate field.name))
      | none => some ((field.read value).map some)
    else none
  | _, .both first second, name, value, slots =>
    let (s, t) : first.Slots × second.Slots := slots
    match first.offer name value s with
    | some entered => some (entered.map fun s => (s, t))
    | none => (second.offer name value t).map fun entered => entered.map fun t => (s, t)

/-- The record of what was read, or the first required field without a value. -/
def finish : {β : Type} → (f : Form β) → f.Slots → Except Fault β
  | _, .one field, slot =>
    match slot <|> field.absent with
    | some value => .ok value
    | none => .error (.missing field.name)
  | _, .both first second, slots => do
    let (s, t) : first.Slots × second.Slots := slots
    let b ← first.finish s
    let c ← second.finish t
    return (b, c)

/-- Reads the members of an object. -/
def enter {β : Type} (f : Form β) : List Member → f.Slots → Except Fault f.Slots
  | [], slots => .ok slots
  | (none, _) :: _, _ => .error .unreadable
  | (some name, value) :: members, slots =>
    match f.offer name value slots with
    | some (.ok slots) => f.enter members slots
    | some (.error fault) => .error fault
    | none => if value.sound then f.enter members slots else .error .unreadable

/-- Reads the items of an array, one for each field. Items may be missing at the
end where their fields have a value without them. -/
def lineUp : {β : Type} → (f : Form β) → Bool → List Tree → Except Fault (β × List Tree)
  | _, .one field, _, value :: items => (field.read value).map fun b => (b, items)
  | _, .one field, closed, [] =>
    match closed, field.absent with
    | true, some b => .ok (b, [])
    | _, _ => .error .unreadable
  | _, .both first second, closed, items => do
    let (b, items) ← first.lineUp closed items
    let (c, items) ← second.lineUp closed items
    return ((b, c), items)

/-- The record of an object that was read as far as given. -/
def ofMembers {β : Type} (f : Form β) (members : List Member) (closed : Bool) : Except Fault β := do
  let slots ← f.enter members f.blank
  if closed then f.finish slots else .error .unreadable

/-- The record of an array. -/
def ofItems {β : Type} (f : Form β) (items : List Tree) (closed : Bool) : Except Fault β := do
  let (b, rest) ← f.lineUp closed items
  if closed && rest.isEmpty then return b else .error .unreadable

def read {β : Type} (f : Form β) : Reader β
  | .object members closed => f.ofMembers members closed
  | .array items closed => f.ofItems items closed
  | _ => .error .unreadable

/-- Reads the members that belong to a form and keeps the others. What is kept
must be a value that can be kept, arrays and objects nested at most `levels`
deep. -/
def enterBeside {β : Type} (f : Form β) (levels : Nat) :
    List Member → f.Slots → Except Fault (f.Slots × List Member)
  | [], slots => .ok (slots, [])
  | (none, _) :: _, _ => .error .unreadable
  | (some name, value) :: members, slots =>
    match f.offer name value slots with
    | some (.ok slots) => f.enterBeside levels members slots
    | some (.error fault) => .error fault
    | none =>
      if value.strict levels then
        (f.enterBeside levels members slots).map fun (slots, kept) =>
          (slots, (some name, value) :: kept)
      else .error .unreadable

/-- Two records in one object. The members that `own` does not know are kept
until the end of the object and then read as the record `guest`. -/
def readBeside {β γ : Type} (own : Form β) (guest : Form γ) (levels : Nat) : Reader (β × γ)
  | .object members closed => do
    let (slots, kept) ← own.enterBeside levels members own.blank
    if closed then
      let b ← own.finish slots
      let c ← guest.ofMembers kept true
      return (b, c)
    else .error .unreadable
  | _ => .error .unreadable

end Form

/-! ### Single values -/

/-- Whole numbers are amounts too. -/
def amount : Reader Float
  | .number n =>
    match n.quick? with
    | some x => .ok x
    | none => .error .unreadable
  | _ => .error .unreadable

def natural : Reader UInt64
  | .number n =>
    match n.natural? with
    | some k => .ok k.toUInt64
    | none => .error .unreadable
  | _ => .error .unreadable

def integer : Reader Int64
  | .number n =>
    match n.integer? with
    | some k => .ok k.toInt64
    | none => .error .unreadable
  | _ => .error .unreadable

def flag : Reader Bool
  | .bool b => .ok b
  | _ => .error .unreadable

def text : Reader String
  | .text (some s) => .ok s
  | _ => .error .unreadable

def symbol : Reader Symbol :=
  fun t => (text t).map Symbol.mk

def orderId : Reader OrderId :=
  fun t => (natural t).map OrderId.mk

def sessionId : Reader SessionId :=
  fun t => (natural t).map SessionId.mk

/-- `null` stands for an absent value. -/
def nullable {β : Type} (read : Reader β) : Reader (Option β)
  | .null => .ok none
  | t => (read t).map some

def readAll {β : Type} (read : Reader β) : List Tree → Except Fault (List β)
  | [] => .ok []
  | t :: ts => do
    let b ← read t
    let bs ← readAll read ts
    return b :: bs

def list {β : Type} (read : Reader β) : Reader (List β)
  | .array items closed => do
    let bs ← readAll read items
    if closed then return bs else .error .unreadable
  | _ => .error .unreadable

def enterAll {β : Type} (read : Reader β) :
    List Member → Table Symbol β → Except Fault (Table Symbol β)
  | [], table => .ok table
  | (none, _) :: _, _ => .error .unreadable
  | (some name, value) :: members, table => do
    let b ← read value
    enterAll read members (table.insert ⟨name⟩ b)

/-- An object whose names are symbols; of two members of one name the later one
stays. -/
def table {β : Type} (read : Reader β) : Reader (Table Symbol β)
  | .object members closed => do
    let entries ← enterAll read members ∅
    if closed then return entries else .error .unreadable
  | _ => .error .unreadable

end Wire
end Brokerage
