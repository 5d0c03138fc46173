/-
# The ledger

Cash and one signed position per symbol. Only fills change a ledger, and a fill
that would take cash below zero is refused and changes nothing. A position that a
fill leaves flat is dropped, so that an entry always means something is held.

Key definitions: `Ledger`, `Ledger.position`, `Ledger.value`, `Ledger.apply`,
`Insolvency`.
-/
import Brokerage.Execution
import Brokerage.Market

namespace Brokerage

/-- Positive quantities are long positions, negative ones short. -/
structure Ledger (α : Type) where
  cash : α
  holdings : Table Symbol α
  deriving BEq, Repr

/-- A fill that the cash at hand does not cover. -/
structure Insolvency (α : Type) where
  symbol : Symbol
  order : OrderId
  value : α
  cash : α
  deriving Repr

namespace Ledger

variable {α : Type} [Amount α]

def ofCash (cash : α) : Ledger α :=
  ⟨cash, ∅⟩

/-- The signed position in a symbol, zero if it has no entry. -/
def position (l : Ledger α) (symbol : Symbol) : α :=
  (l.holdings.get? symbol).getD 0

/-- Adds the positions to `sum`, each at its bid; a position without a quote is
named instead. -/
def addMarked (quotes : Quotes α) : List (Symbol × α) → α → Except Symbol α
  | [], sum => .ok sum
  | (symbol, quantity) :: held, sum =>
    match quotes.get? symbol with
    | none => .error symbol
    | some quote => addMarked quotes held (sum + quantity * quote.bid)

/-- Cash and every position at its bid, or a held symbol without a quote. -/
def value (l : Ledger α) (quotes : Quotes α) : Except Symbol α :=
  addMarked quotes l.holdings.entries l.cash

/-- The holdings after `change` is added to the position in `symbol`. Whether the
rest is flat is judged by the larger of the old position and the change. -/
def adjusted (l : Ledger α) (symbol : Symbol) (change : α) : Table Symbol α :=
  let held := l.position symbol
  let rest := held + change
  if isFlat rest (larger (magnitude held) (magnitude change)) then l.holdings.erase symbol
  else l.holdings.insert symbol rest

/-- Books a fill that leaves `cash` and changes the position by `change`. -/
def settle (l : Ledger α) (e : Execution α) (cash change : α) :
    Except (Insolvency α) (Ledger α) :=
  if cash < 0 then .error ⟨e.symbol, e.order, e.value, l.cash⟩
  else .ok ⟨cash, l.adjusted e.symbol change⟩

/-- Books an execution. Confirmations of cancels and modifies are not fills and
change nothing. -/
def apply (l : Ledger α) (e : Execution α) : Except (Insolvency α) (Ledger α) :=
  match e.kind with
  | .buy => l.settle e (l.cash - e.value) e.quantity
  | .sell => l.settle e (l.cash + e.value) (-e.quantity)
  | .cancel | .modify => .ok l

end Ledger

end Brokerage
