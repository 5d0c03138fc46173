/-
# Writing a double

`Layout` holds the decisions of one output format; `write` lays the shortest
digits out as it says.

Key definitions: `Layout`, `write`, `plain`.
-/
import Brokerage.Decimal.Shortest

namespace Brokerage
namespace Decimal

/-- The decisions of an output format for doubles. -/
structure Layout where
  /-- Is a number whose leading digit counts `10 ^ e` written without an exponent? -/
  positional : Int → Bool
  /-- Whole numbers keep `.0`. -/
  pointZero : Bool
  /-- A positive exponent has its sign written. -/
  exponentPlus : Bool
  tie : Tie

/-- The number of digits of a decimal. -/
def Scaled.width (d : Scaled) : Nat :=
  (toString d.digits).length

/-- Digits with the point at its place. -/
def Scaled.positional (d : Scaled) (pointZero : Bool) : String :=
  let digits := toString d.digits
  if 0 ≤ d.power then
    digits ++ String.ofList (List.replicate d.power.toNat '0') ++ if pointZero then ".0" else ""
  else
    let places := (-d.power).toNat
    let padded := List.replicate (places + 1 - digits.length) '0' ++ digits.toList
    String.ofList (padded.take (padded.length - places)) ++ "."
      ++ String.ofList (padded.drop (padded.length - places))

/-- One digit, the point, the others, and the exponent of the first. -/
def Scaled.scientific (d : Scaled) (leading : Int) (exponentPlus : Bool) : String :=
  let mantissa := match (toString d.digits).toList with
    | [] => ""
    | [c] => String.ofList [c]
    | c :: cs => String.ofList (c :: '.' :: cs)
  mantissa ++ "e" ++ (if exponentPlus && 0 ≤ leading then "+" else "") ++ toString leading

/-- A decimal in the given format. -/
def Scaled.render (f : Layout) (d : Scaled) : String :=
  let leading := d.power + d.width - 1
  if d.digits == 0 || f.positional leading then d.positional f.pointZero
  else d.scientific leading f.exponentPlus

/-- A double in the given format. -/
def write (f : Layout) (x : Float) : String :=
  match classify x with
  | .nan => "NaN"
  | .infinite negative => if negative then "-inf" else "inf"
  | .finite negative b =>
    (if negative then "-" else "")
      ++ (if b.mantissa == 0 then ⟨0, 0⟩ else shortest f.tie b).render f

/-- Amounts inside messages: never an exponent, and whole numbers without a point. -/
def inMessages : Layout where
  positional := fun _ => true
  pointZero := false
  exponentPlus := false
  tie := .up

/-- An amount as messages show it. -/
def plain (x : Float) : String :=
  write inMessages x

end Decimal
end Brokerage
