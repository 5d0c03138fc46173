/-
# The market as the service shows it

Quotes are the best prices of a symbol, depth is its book level by level. A
snapshot holds both for all symbols of one step.

Key definitions: `Quote`, `Depth`, `Quotes`, `Depths`, `latestDate`.
-/
import Brokerage.Amount
import Brokerage.Identity
import Brokerage.Table

namespace Brokerage

structure Quote (α : Type) where
  bid : α
  ask : α
  bidVolume : α
  askVolume : α
  date : Timestamp
  deriving BEq, Repr

structure Level (α : Type) where
  price : α
  size : α
  deriving BEq, Repr

/-- Both sides of a book, the best level first. -/
structure Depth (α : Type) where
  bids : List (Level α)
  asks : List (Level α)
  deriving BEq, Repr

abbrev Quotes (α : Type) := Table Symbol (Quote α)

abbrev Depths (α : Type) := Table Symbol (Depth α)

section

variable {α : Type} [Amount α]

def Quote.spread (q : Quote α) : α :=
  q.ask - q.bid

def Quote.mid (q : Quote α) : α :=
  (q.bid + q.ask) / (1 + 1)

/-- The sizes of all levels, added from the best on. -/
def totalSize (levels : List (Level α)) : α :=
  levels.foldl (fun sum level => sum + level.size) (-0)

end

/-- The later of two times. -/
def later (a b : Timestamp) : Timestamp :=
  if a ≤ b then b else a

/-- The time of a snapshot: the greatest date of its quotes. -/
def latestDate {α : Type} (quotes : Quotes α) : Option Timestamp :=
  match quotes.entries with
  | [] => none
  | e :: es => some (es.foldl (fun t e => later t e.2.date) e.2.date)

end Brokerage
