/-
# The value that a text holds

Key definitions: `Tree.content`.
-/
import Brokerage.Json.Tree
import Brokerage.Json.Value

namespace Brokerage
namespace Json

open Decimal (Numeral)

/-- A numeral as a whole number, if it fits a word, or else as an amount. -/
def contentOfNumeral (n : Numeral) : Value :=
  match n.integer?, n.natural? with
  | some k, _ => .integer k
  | none, some k => .integer k
  | none, none => .amount (n.quick?.getD 0)

mutual

/-- The value of a tree; what could not be read counts as `null`. -/
def Tree.content : Tree → Value
  | .broken | .null => .null
  | .bool b => .bool b
  | .number n => contentOfNumeral n
  | .text s => .ofOption .text s
  | .array items _ => .array (contentOfItems items)
  | .object members _ => .object (contentOfMembers members)

def contentOfItems : List Tree → List Value
  | [] => []
  | t :: ts => t.content :: contentOfItems ts

def contentOfMembers : List Member → List (String × Value)
  | [] => []
  | (name, t) :: ms => (name.getD "", t.content) :: contentOfMembers ms

end

end Json
end Brokerage
