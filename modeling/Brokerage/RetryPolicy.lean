/-
# Retrying requests

How often a failed request is attempted, and how long to wait in between: the
wait grows by a factor with every attempt, up to a limit.

Key definitions: `RetryPolicy`, `RetryPolicy.delay`, `RetryPolicy.backoff?`,
`RetryPolicy.backoff`, `isTransient`.
-/
import Brokerage.Duration

namespace Brokerage

structure RetryPolicy (α : Type) where
  /-- All attempts, the first included. -/
  maxAttempts : Nat
  initialBackoff : Duration
  multiplier : α
  maxBackoff : Duration
  /-- Submissions are repeated too; the service may then see a batch twice. -/
  retrySubmissions : Bool
  deriving Repr

/-- `r · a ^ n` by repeated squaring. -/
def squarings {α : Type} [Amount α] (r a : α) (n : Nat) : α :=
  let r := if n % 2 = 1 then r * a else r
  if h : n / 2 = 0 then r else squarings r (a * a) (n / 2)
termination_by n
decreasing_by omega

namespace RetryPolicy

variable {α : Type} [Amount α]

def standard : RetryPolicy α where
  maxAttempts := 3
  initialBackoff := .ofMilliseconds 100
  multiplier := 1 + 1
  maxBackoff := .ofWholeSeconds 5
  retrySubmissions := true

/-- One attempt only. -/
def single : RetryPolicy α :=
  { standard with maxAttempts := 1 }

def withMaxAttempts (p : RetryPolicy α) (attempts : Nat) : RetryPolicy α :=
  { p with maxAttempts := max attempts 1 }

def withBackoff (p : RetryPolicy α) (initial limit : Duration) : RetryPolicy α :=
  { p with initialBackoff := initial, maxBackoff := limit }

/-- The seconds to wait after failed attempt number `attempt`; nothing stands for
the limit. The factor is applied 32 times at most. -/
def delay (p : RetryPolicy α) (attempt : Nat) : Option α :=
  let seconds := p.initialBackoff.seconds * squarings 1 p.multiplier (min (attempt - 1) 32)
  if !Amount.isFinite seconds || decide (p.maxBackoff.seconds ≤ seconds) then none
  else some (larger seconds 0)

/-- The wait after failed attempt number `attempt`; none if its seconds make no
duration. -/
def backoff? (p : RetryPolicy Float) (attempt : Nat) : Option Duration :=
  match p.delay attempt with
  | none => some p.maxBackoff
  | some seconds => Duration.ofSeconds? seconds

def backoff (p : RetryPolicy Float) (attempt : Nat) : Duration :=
  (p.backoff? attempt).getD p.maxBackoff

end RetryPolicy

/-- A gateway that fails may work again; any other status is the answer of the
service. -/
def isTransient (status : Nat) : Bool :=
  502 ≤ status && status ≤ 504

end Brokerage
