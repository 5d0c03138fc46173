/-
# What was read of a JSON text

A `Tree` is a JSON text as far as it could be read: where the text breaks off or
breaks a rule, the tree says so in that place and holds nothing after it. A
decoder that walks the tree in order therefore meets the faults of the text and
its own faults in the order in which they stand.

Two things are read although not every use admits them: a text with half of a
surrogate pair (`text none`) and a number too large for a double.

Key definitions: `Tree`, `Tree.sound`, `Tree.strict`.
-/
import Brokerage.Decimal.Numeral

namespace Brokerage
namespace Json

open Decimal (Numeral)

inductive Tree where
  /-- The text breaks off or breaks a rule here. -/
  | broken
  | null
  | bool (value : Bool)
  | number (value : Numeral)
  /-- Nothing stands for a text with half of a surrogate pair. -/
  | text (value : Option String)
  /-- An array, and whether its end was found. -/
  | array (items : List Tree) (closed : Bool)
  /-- An object, and whether its end was found. -/
  | object (members : List (Option String × Tree)) (closed : Bool)
  deriving Repr

/-- The name and the value of a member. -/
abbrev Member := Option String × Tree

mutual

/-- The text of this tree breaks no rule of the grammar. -/
def Tree.sound : Tree → Bool
  | .broken => false
  | .null | .bool _ | .number _ | .text _ => true
  | .array items closed => closed && soundItems items
  | .object members closed => closed && soundMembers members

def soundItems : List Tree → Bool
  | [] => true
  | t :: ts => t.sound && soundItems ts

def soundMembers : List Member → Bool
  | [] => true
  | (_, t) :: ms => t.sound && soundMembers ms

end

mutual

/-- The tree can be kept as a value: it is sound, its numbers are in range, its
texts are whole, and arrays and objects nest at most `levels` deep. -/
def Tree.strict : Nat → Tree → Bool
  | _, .broken => false
  | _, .null | _, .bool _ => true
  | _, .number n => n.quick?.isSome
  | _, .text s => s.isSome
  | 0, .array _ _ | 0, .object _ _ => false
  | levels + 1, .array items closed => closed && strictItems levels items
  | levels + 1, .object members closed => closed && strictMembers levels members

def strictItems : Nat → List Tree → Bool
  | _, [] => true
  | levels, t :: ts => t.strict levels && strictItems levels ts

def strictMembers : Nat → List Member → Bool
  | _, [] => true
  | levels, (name, t) :: ms => name.isSome && t.strict levels && strictMembers levels ms

end

end Json
end Brokerage
