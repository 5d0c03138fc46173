/-
# Names and times

Symbols name what is traded. The service numbers orders and sessions; the client
never makes up a number of its own. Times are whole seconds.

Key definitions: `Symbol`, `OrderId`, `SessionId`, `Timestamp`.
-/
namespace Brokerage

/-- What is traded. -/
structure Symbol where
  name : String
  deriving DecidableEq, Repr

/-- The number of an order, given by the service. -/
structure OrderId where
  value : UInt64
  deriving DecidableEq, Repr

/-- The number of a session, given by the service. -/
structure SessionId where
  value : UInt64
  deriving DecidableEq, Repr

/-- Simulated time in seconds. -/
abbrev Timestamp := Int64

def OrderId.describe (id : OrderId) : String :=
  "O" ++ toString id.value

def SessionId.describe (id : SessionId) : String :=
  "S" ++ toString id.value

/-- A time that may be unknown. -/
def describeTime : Option Timestamp → String
  | none => "None"
  | some t => "Some(" ++ toString t ++ ")"

end Brokerage
