/-
# A fixed number of places

The exact value is rounded to a whole number of units; halves go to the even
neighbour. `twoPlaces` writes money; with `Binary.roundTimes` seconds become
whole nanoseconds.

Key definitions: `roundHalfEven`, `Binary.roundTimes`, `twoPlaces`.
-/
import Brokerage.Decimal.Binary

namespace Brokerage
namespace Decimal

/-- `num / den` rounded to the nearest whole number, halves to the even one. -/
def roundHalfEven (num den : Nat) : Nat :=
  let q := num / den
  let r := num % den
  if 2 * r < den then q
  else if den < 2 * r then q + 1
  else if q % 2 == 0 then q else q + 1

/-- The double times `scale`, rounded to a whole number. -/
def Binary.roundTimes (b : Binary) (scale : Nat) : Nat :=
  roundHalfEven (b.mantissa * raised 2 b.exponent * scale) (raised 2 (-b.exponent))

/-- A text of digits, filled up with zeros on the left. -/
def zeroPadded (width n : Nat) : List Char :=
  let digits := (toString n).toList
  List.replicate (width - digits.length) '0' ++ digits

/-- An amount with two places. A negative amount keeps its sign, even where it
rounds to zero. -/
def twoPlaces (x : Float) : String :=
  match classify x with
  | .nan => "NaN"
  | .infinite negative => if negative then "-inf" else "inf"
  | .finite negative b =>
    let digits := zeroPadded 3 (b.roundTimes 100)
    (if negative then "-" else "") ++ String.ofList (digits.take (digits.length - 2)) ++ "."
      ++ String.ofList (digits.drop (digits.length - 2))

end Decimal
end Brokerage
