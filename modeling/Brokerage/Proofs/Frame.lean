/-
# What a broker does not look at

Items are taken and a step is concluded in the same way whatever the service and
whatever orders are pending (`Broker.takeItem_recast`, `Broker.conclude_recast`).
So while a step is held, insertions and the service have no part in what becomes
of it.

Key definitions: `Broker.recast`, `Broker.onto`, `Broker.SameFrame`,
`Broker.holding`.
Key theorems: `Broker.takeItem_recast`, `Broker.feed_recast`, `Broker.feed_frame`,
`Broker.conclude_recast`, `Broker.applyStep_recast`, `Broker.after_inserts`,
`Broker.tick_holding`.
-/
import Brokerage.Proofs.Run

namespace Brokerage
namespace Broker

variable {σ τ α : Type} [Amount α]

/-- The broker at another service and with other orders pending. -/
def recast (b : Broker σ α) (t : τ) (orders : List (Order α)) : Broker τ α :=
  { b with service := t, account := b.account.buffering orders }

/-- The broker at another service. -/
def onto (b : Broker σ α) (t : τ) : Broker τ α :=
  b.recast t b.account.blotter.pending

theorem recast_self (b : Broker σ α) : b.recast b.service b.account.blotter.pending = b := rfl

theorem takeItem_recast (t : τ) (orders : List (Order α)) (b : Broker σ α) (i : StepItem α) :
    (b.recast t orders).takeItem i = (b.takeItem i).map (·.recast t orders) := by
  have haccount : (b.recast t orders).account = b.account.buffering orders := rfl
  rw [takeItem_eq, takeItem_eq, haccount, Account.take_buffering]
  cases b.account.take i with
  | error cause => rfl
  | ok a => cases i <;> rfl

theorem takeItem_error_of_recast {t : τ} {orders : List (Order α)} {b : Broker σ α}
    {i : StepItem α} {cause : Discrepancy α}
    (h : (b.recast t orders).takeItem i = .error cause) : b.takeItem i = .error cause := by
  rw [takeItem_recast] at h
  cases hb : b.takeItem i with
  | error cause' => rw [hb] at h; cases h; rfl
  | ok c => rw [hb] at h; cases h

theorem feed_recast (t : τ) (orders : List (Order α)) (items : List (StepItem α)) (b : Broker σ α) :
    feed takeItem (b.recast t orders) items =
      ((feed takeItem b items).1.recast t orders, (feed takeItem b items).2) :=
  feed_hom (takeItem_recast t orders) items b

theorem snags_recast (t : τ) (orders : List (Order α)) (items : List (StepItem α))
    (b : Broker σ α) : snags takeItem (b.recast t orders) items = snags takeItem b items :=
  snags_hom (takeItem_recast t orders) items b

theorem passing_recast (t : τ) (orders : List (Order α)) (items : List (StepItem α))
    (b : Broker σ α) : passing takeItem (b.recast t orders) items = passing takeItem b items :=
  passing_hom (takeItem_recast t orders) items b

/-- `c` differs from `b` at most in what the items of a step change. -/
structure SameFrame (b c : Broker σ α) : Prop where
  finished : c.finished = b.finished
  held : c.held = b.held
  service : c.service = b.service
  quotes : c.quotes = b.quotes
  depths : c.depths = b.depths
  now : c.now = b.now
  values : c.values = b.values
  pending : c.account.blotter.pending = b.account.blotter.pending

theorem feed_frame {b c : Broker σ α} {items : List (StepItem α)}
    {stop : Option (Discrepancy α × List (StepItem α))} (h : feed takeItem b items = (c, stop)) :
    SameFrame b c := by
  have hframe := feed_keeps
    (fun b => (b.finished, b.held, b.service, b.quotes, b.depths, b.now, b.values))
    (fun b a i => by cases i <;> rfl) items b
  have hpending := feed_pending items b
  rw [h] at hframe hpending
  simp only [Prod.mk.injEq] at hframe
  obtain ⟨hfinished, hheld, hservice, hquotes, hdepths, hnow, hvalues⟩ := hframe
  exact ⟨hfinished, hheld, hservice, hquotes, hdepths, hnow, hvalues, hpending⟩

/-- What concluding a step yields does not depend on the service or the pending
orders. -/
theorem conclude_recast (t : τ) (orders : List (Order α)) (b : Broker σ α) (step : Step α)
    (report : TickReport α) : (b.recast t orders).conclude step report =
      ((b.conclude step report).1, (b.conclude step report).2.recast t orders) := by
  have hledger : (b.recast t orders).account.ledger = b.account.ledger := rfl
  unfold conclude
  cases step.hasNext with
  | false => rfl
  | true =>
    simp only [hledger, Bool.not_true, Bool.false_eq_true, if_false]
    cases b.account.ledger.value step.quotes <;> rfl

theorem conclude_recast_self (b : Broker σ α) (step : Step α) (report : TickReport α) :
    (b.conclude step report).2.recast b.service b.account.blotter.pending =
      (b.conclude step report).2 :=
  (congrArg Prod.snd (conclude_recast b.service b.account.blotter.pending b step report)).symm

/-- A step is applied in the same way whatever the service and the pending orders,
and it touches neither. -/
theorem applyStep_recast (t : τ) (orders : List (Order α)) (b : Broker σ α) (step : Step α)
    (report : TickReport α) : (b.recast t orders).applyStep step report =
      ((b.applyStep step report).1, (b.applyStep step report).2.recast t orders) := by
  rw [applyStep_eq, applyStep_eq, feed_recast]
  rcases feed takeItem b step.items with ⟨c, _ | ⟨cause, rest⟩⟩
  · exact conclude_recast t orders c step _
  · rfl

theorem applyStep_recast_self (b : Broker σ α) (step : Step α) (report : TickReport α) :
    (b.applyStep step report).2.recast b.service b.account.blotter.pending =
      (b.applyStep step report).2 :=
  (congrArg Prod.snd (applyStep_recast b.service b.account.blotter.pending b step report)).symm

/-- At another service, whatever it is made of, a step is applied in the same way. -/
theorem applyStep_onto (f : σ → τ) (b : Broker σ α) (step : Step α) (report : TickReport α) :
    (b.onto (f b.service)).applyStep step report =
      let done := b.applyStep step report
      (done.1, done.2.onto (f done.2.service)) := by
  have hkept := b.applyStep_recast_self step report
  have hservice : b.service = (b.applyStep step report).2.service := congrArg (·.service) hkept
  have hpending : b.account.blotter.pending =
      (b.applyStep step report).2.account.blotter.pending :=
    congrArg (·.account.blotter.pending) hkept
  unfold onto
  simp only [applyStep_recast, ← hservice, ← hpending]

/-! ### Insertions and held steps -/

/-- An order inserted before the end of the session is kept. -/
theorem insert_active {b : Broker σ α} (hactive : b.finished = false) (order : Order α) :
    b.insert order = (.ok (), b.recast b.service (b.account.blotter.pending ++ [order])) := by
  unfold insert
  rw [if_neg (by rw [hactive]; exact Bool.false_ne_true)]
  rfl

/-- The broker with the rest of a step set aside. -/
def holding (b : Broker σ α) (step : Step α) : Broker σ α :=
  { b with held := some step }

theorem tick_holding [Service σ α] {b : Broker σ α} (hactive : b.finished = false)
    (hfree : b.held = none) (step : Step α) :
    (b.holding step).tick = b.applyStep step blankReport := by
  have hsame : ({ b with held := none } : Broker σ α) = b := by rw [← hfree]
  unfold tick
  rw [if_neg (by show ¬ b.finished = true; rw [hactive]; exact Bool.false_ne_true)]
  show applyStep { b with held := none } step blankReport = _
  rw [hsame]

/-- Orders inserted one after the other are all kept. -/
theorem after_inserts [Service σ α] : ∀ (orders : List (Order α)) {b : Broker σ α},
    b.finished = false →
      b.after (orders.map .insert) = b.recast b.service (b.account.blotter.pending ++ orders) ∧
        b.outcomes (orders.map .insert) = []
  | [], b, _ => ⟨by rw [List.append_nil]; rfl, rfl⟩
  | order :: orders, b, hactive => by
    have hstep : (b.perform (.insert order)).2 =
        b.recast b.service (b.account.blotter.pending ++ [order]) := by
      show (b.insert order).2 = _
      rw [insert_active hactive]
    obtain ⟨hafter, houtcomes⟩ := after_inserts orders
      (b := b.recast b.service (b.account.blotter.pending ++ [order])) hactive
    constructor
    · show (b.perform (.insert order)).2.after (orders.map .insert) = _
      rw [hstep, hafter]
      show b.recast b.service ((b.account.blotter.pending ++ [order]) ++ orders) = _
      rw [List.append_assoc]
      rfl
    · show (b.perform (.insert order)).2.outcomes (orders.map .insert) = []
      rw [hstep, houtcomes]

end Broker
end Brokerage
