/-
# Durations

A duration is a whole number of nanoseconds.

Key definitions: `Duration`, `Duration.seconds`, `Duration.Fits`,
`Duration.ofSeconds?`, `Duration.describe`.
-/
import Brokerage.Amount
import Brokerage.Decimal.Places

namespace Brokerage

structure Duration where
  nanoseconds : Nat
  deriving DecidableEq, Repr

namespace Duration

def ofMilliseconds (n : Nat) : Duration :=
  ⟨n * 1000000⟩

def ofWholeSeconds (n : Nat) : Duration :=
  ⟨n * 1000000000⟩

def max (d e : Duration) : Duration :=
  if d.nanoseconds ≤ e.nanoseconds then e else d

/-- Whole seconds, and the rest as a fraction of one. -/
def seconds {α : Type} [Amount α] (d : Duration) : α :=
  Amount.count (d.nanoseconds / 1000000000)
    + Amount.count (d.nanoseconds % 1000000000) / Amount.count 1000000000

/-- One nanosecond more than the longest duration. -/
def limit : Nat :=
  UInt64.size * 1000000000

/-- The whole seconds fit a word. -/
def Fits (d : Duration) : Prop :=
  d.nanoseconds < limit

instance (d : Duration) : Decidable d.Fits :=
  inferInstanceAs (Decidable (_ < _))

/-- Seconds to the nearest nanosecond, halves to the even one. There is no duration
below zero, none that does not fit, and none of seconds that are not finite. -/
def ofSeconds? (x : Float) : Option Duration :=
  if x < 0 then none
  else
    match Decimal.classify x with
    | .finite _ b =>
      let n := b.roundTimes 1000000000
      if n < limit then some ⟨n⟩ else none
    | _ => none

/-- A number of units with the places of its rest, without zeros at the end. -/
def withPlaces (whole rest places : Nat) : String :=
  let digits := ((Decimal.zeroPadded places rest).reverse.dropWhile (· == '0')).reverse
  toString whole ++ if digits.isEmpty then "" else "." ++ String.ofList digits

/-- In the largest unit of which there is at least one. -/
def describe (d : Duration) : String :=
  let n := d.nanoseconds
  if 1000000000 ≤ n then withPlaces (n / 1000000000) (n % 1000000000) 9 ++ "s"
  else if 1000000 ≤ n then withPlaces (n / 1000000) (n % 1000000) 6 ++ "ms"
  else if 1000 ≤ n then withPlaces (n / 1000) (n % 1000) 3 ++ "µs"
  else toString n ++ "ns"

end Duration
end Brokerage
