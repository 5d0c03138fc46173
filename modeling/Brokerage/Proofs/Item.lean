/-
# The items of a step

A step is a list of items: its executions, then its placements. Applying a step
is feeding the broker its items and concluding if none fails, or holding the
items after the failing one (`Broker.applyStep_eq`). What the broker makes of an
item is decided by its account alone (`Broker.takeItem_eq`), the orders still
pending play no part in it (`Account.take_buffering`), and the items that fail are
those that are `Unfit` (`Account.take_error_iff`).

Key definitions: `StepItem`, `StepItem.Unfit`, `Step.items`, `Step.keeping`,
`Account.take`, `Broker.takeItem`, `Broker.book`.
Key theorems: `Broker.applyStep_eq`, `Broker.takeItem_eq`, `Account.take_error_iff`,
`Account.take_buffering`, `Broker.feed_keeps`, `Broker.feed_account`.
-/
import Brokerage.Proofs.Blotter
import Brokerage.Proofs.Feed
import Brokerage.Proofs.Position

namespace Brokerage

variable {σ α : Type} [Amount α]

inductive StepItem (α : Type) [Amount α] where
  | execution (e : Execution α)
  | placement (id : OrderId) (order : Order α)

namespace StepItem

def execution? : StepItem α → Option (Execution α)
  | .execution e => some e
  | .placement _ _ => none

def placement? : StepItem α → Option (OrderId × Order α)
  | .execution _ => none
  | .placement id order => some (id, order)

end StepItem

/-- The executions among some items. -/
def executionsIn (items : List (StepItem α)) : List (Execution α) :=
  items.filterMap StepItem.execution?

/-- The placements among some items. -/
def placementsIn (items : List (StepItem α)) : List (OrderId × Order α) :=
  items.filterMap StepItem.placement?

theorem executionsIn_append (is js : List (StepItem α)) :
    executionsIn (is ++ js) = executionsIn is ++ executionsIn js :=
  List.filterMap_append

theorem placementsIn_append (is js : List (StepItem α)) :
    placementsIn (is ++ js) = placementsIn is ++ placementsIn js :=
  List.filterMap_append

theorem executionsIn_executions : ∀ es : List (Execution α),
    executionsIn (es.map StepItem.execution) = es
  | [] => rfl
  | e :: es => congrArg (e :: ·) (executionsIn_executions es)

theorem executionsIn_placements : ∀ ps : List (OrderId × Order α),
    executionsIn (ps.map fun p => StepItem.placement p.1 p.2) = []
  | [] => rfl
  | _ :: ps => executionsIn_placements ps

theorem placementsIn_placements : ∀ ps : List (OrderId × Order α),
    placementsIn (ps.map fun p => StepItem.placement p.1 p.2) = ps
  | [] => rfl
  | p :: ps => congrArg (p :: ·) (placementsIn_placements ps)

theorem placementsIn_executions : ∀ es : List (Execution α),
    placementsIn (es.map StepItem.execution) = []
  | [] => rfl
  | _ :: es => placementsIn_executions es

namespace Step

/-- Executions first, then placements. -/
def items (s : Step α) : List (StepItem α) :=
  s.executed.map .execution ++ s.inserted.map fun p => .placement p.1 p.2

/-- The step with other items. -/
def keeping (s : Step α) (items : List (StepItem α)) : Step α :=
  { s with executed := executionsIn items, inserted := placementsIn items }

theorem executionsIn_items (s : Step α) : executionsIn s.items = s.executed := by
  rw [items, executionsIn_append, executionsIn_executions, executionsIn_placements,
    List.append_nil]

theorem placementsIn_items (s : Step α) : placementsIn s.items = s.inserted := by
  rw [items, placementsIn_append, placementsIn_executions, placementsIn_placements,
    List.nil_append]

theorem keeping_items (s : Step α) : s.keeping s.items = s := by
  rw [keeping, executionsIn_items, placementsIn_items]

/-- A sublist of the items of a step has its executions first as well. -/
theorem items_keeping {s : Step α} {items : List (StepItem α)} (h : items.Sublist s.items) :
    (s.keeping items).items = items := by
  obtain ⟨front, back, rfl, hfront, hback⟩ := List.sublist_append_iff.mp h
  obtain ⟨es, -, rfl⟩ := List.sublist_map_iff.mp hfront
  obtain ⟨ps, -, rfl⟩ := List.sublist_map_iff.mp hback
  rw [Step.items, keeping]
  simp only [executionsIn_append, placementsIn_append, executionsIn_executions,
    executionsIn_placements, placementsIn_executions, placementsIn_placements, List.append_nil,
    List.nil_append]

end Step

/-! ### What the broker makes of an item -/

theorem Ledger.settle_error_iff (l : Ledger α) (e : Execution α) (cash change : α) :
    (∃ cause, l.settle e cash change = .error cause) ↔ cash < 0 := by
  unfold Ledger.settle
  by_cases h : cash < 0
  · rw [if_pos h]
    exact ⟨fun _ => h, fun _ => ⟨_, rfl⟩⟩
  · rw [if_neg h]
    exact ⟨fun ⟨_, hc⟩ => (by cases hc), fun hc => absurd hc h⟩

/-- The account cannot follow the item: the fill would take cash below zero, the
cancel or modify names no resting order, the instruction to cancel is not resting
itself, or the number of the placement is taken. -/
def StepItem.Unfit (a : Account α) : StepItem α → Prop
  | .execution e =>
    match e.kind with
    | .buy => a.ledger.cash - e.value < 0
    | .sell => a.ledger.cash + e.value < 0
    | .cancel =>
      (¬ ∃ target, e.reference = some target ∧ a.blotter.isResting target = true) ∨
        a.blotter.isResting e.order = false
    | .modify => ¬ ∃ target, e.reference = some target ∧ a.blotter.isResting target = true
  | .placement id _ => a.blotter.isResting id = true

namespace Account

/-- Reconciles an execution or follows a placement. -/
def take (a : Account α) : StepItem α → Except (Discrepancy α) (Account α)
  | .execution e => a.reconcile e
  | .placement id order => a.place id order

/-- The pending orders play no part. -/
theorem take_buffering (a : Account α) (orders : List (Order α)) : ∀ i : StepItem α,
    (a.buffering orders).take i = (a.take i).map (·.buffering orders)
  | .execution e => a.reconcile_buffering orders e
  | .placement id order => a.place_buffering orders id order

theorem take_pending {a a' : Account α} {i : StepItem α} (h : a.take i = .ok a') :
    a'.blotter.pending = a.blotter.pending := by
  have hself := a.take_buffering a.blotter.pending i
  rw [a.buffering_self, h] at hself
  exact congrArg (·.blotter.pending) (Except.ok.inj hself)

theorem reconcile_ledger {a a' : Account α} {e : Execution α} (h : a.reconcile e = .ok a') :
    a.ledger.apply e = .ok a'.ledger := by
  unfold reconcile at h
  cases hk : e.kind with
  | buy | sell =>
    simp only [hk] at h
    cases hl : a.ledger.apply e with
    | error cause => rw [hl] at h; cases h
    | ok ledger => rw [hl] at h; cases h; rfl
  | cancel =>
    simp only [hk] at h
    rw [Ledger.apply_of_not_fill _ (by rw [hk]; rfl)]
    cases hb : a.blotter.cancel e with
    | error cause => rw [hb] at h; cases h
    | ok blotter => rw [hb] at h; cases h; rfl
  | modify =>
    simp only [hk] at h
    rw [Ledger.apply_of_not_fill _ (by rw [hk]; rfl)]
    cases hb : a.blotter.modify e with
    | error cause => rw [hb] at h; cases h
    | ok blotter => rw [hb] at h; cases h; rfl

theorem place_ledger {a a' : Account α} {id : OrderId} {order : Order α}
    (h : a.place id order = .ok a') : a'.ledger = a.ledger := by
  unfold place at h
  cases hb : a.blotter.place id order with
  | error cause => rw [hb] at h; cases h
  | ok blotter => rw [hb] at h; cases h; rfl

/-- Cash does not go below zero. -/
theorem take_cash_not_neg {a a' : Account α} (ha : ¬ a.ledger.cash < 0) : ∀ {i : StepItem α},
    a.take i = .ok a' → ¬ a'.ledger.cash < 0
  | .execution _, h => Ledger.apply_cash_not_neg (reconcile_ledger h) ha
  | .placement _ _, h => by rw [place_ledger h]; exact ha

theorem feed_cash_not_neg {a a' : Account α} {items : List (StepItem α)}
    {stop : Option (Discrepancy α × List (StepItem α))} (h : feed take a items = (a', stop))
    (ha : ¬ a.ledger.cash < 0) : ¬ a'.ledger.cash < 0 := by
  have hkept : ¬ (feed take a items).1.ledger.cash < 0 :=
    feed_invariant (P := fun a : Account α => ¬ a.ledger.cash < 0)
      (fun _ _ _ ha hi => take_cash_not_neg ha hi) items a ha
  rwa [h] at hkept

/-- The items that fail are those that are unfit. -/
theorem take_error_iff (a : Account α) : ∀ i : StepItem α,
    (∃ cause, a.take i = .error cause) ↔ i.Unfit a
  | .execution e => by
    unfold take reconcile StepItem.Unfit
    cases hk : e.kind with
    | buy =>
      simp only [Ledger.apply, hk]
      rw [← Ledger.settle_error_iff a.ledger e _ e.quantity]
      cases a.ledger.settle e (a.ledger.cash - e.value) e.quantity <;> simp
    | sell =>
      simp only [Ledger.apply, hk]
      rw [← Ledger.settle_error_iff a.ledger e _ (-e.quantity)]
      cases a.ledger.settle e (a.ledger.cash + e.value) (-e.quantity) <;> simp
    | cancel =>
      simp only [hk]
      rw [← Blotter.cancel_error_iff]
      cases a.blotter.cancel e <;> simp
    | modify =>
      simp only [hk]
      rw [← Blotter.modify_error_iff]
      cases a.blotter.modify e <;> simp
  | .placement id order => by
    unfold take place Blotter.place StepItem.Unfit
    cases h : a.blotter.isResting id <;> simp [h]

end Account

namespace Broker

/-- Enters an item that has made `a` of the account. -/
def book (b : Broker σ α) (a : Account α) : StepItem α → Broker σ α
  | .execution e =>
    note { b with account := a, tradeLog := b.tradeLog ++ [e] } [.resultApplied e a.ledger.cash]
  | .placement id order =>
    note { b with account := a, insertedLastTick := b.insertedLastTick ++ [id] }
      [.orderResting id order]

/-- Applies one item of a step. -/
def takeItem (b : Broker σ α) : StepItem α → Except (Discrepancy α) (Broker σ α)
  | .execution e => b.takeExecution e
  | .placement id order => b.takePlacement (id, order)

theorem takeItem_eq (b : Broker σ α) (i : StepItem α) :
    b.takeItem i = (b.account.take i).map fun a => b.book a i := by
  cases i with
  | execution e =>
    show b.takeExecution e = (b.account.reconcile e).map _
    unfold takeExecution
    cases b.account.reconcile e <;> rfl
  | placement id order =>
    show b.takePlacement (id, order) = (b.account.place id order).map _
    unfold takePlacement
    cases b.account.place id order <;> rfl

theorem takeItem_ok {b c : Broker σ α} {i : StepItem α} (h : b.takeItem i = .ok c) :
    ∃ a, b.account.take i = .ok a ∧ c = b.book a i := by
  rw [takeItem_eq] at h
  cases ha : b.account.take i with
  | error cause => rw [ha] at h; cases h
  | ok a => rw [ha] at h; exact ⟨a, rfl, (Except.ok.inj h).symm⟩

theorem book_account (b : Broker σ α) (a : Account α) (i : StepItem α) :
    (b.book a i).account = a := by
  cases i <;> rfl

/-- What no booking changes, applying items does not change. -/
theorem feed_keeps {γ : Type} (f : Broker σ α → γ) (h : ∀ b a i, f (b.book a i) = f b)
    (items : List (StepItem α)) (b : Broker σ α) : f (feed takeItem b items).1 = f b := by
  refine feed_invariant (P := fun c => f c = f b) (fun c i d hc hd => ?_) items b rfl
  obtain ⟨a, -, rfl⟩ := takeItem_ok hd
  rw [h, hc]

theorem feed_pending (items : List (StepItem α)) (b : Broker σ α) :
    (feed takeItem b items).1.account.blotter.pending = b.account.blotter.pending := by
  refine feed_invariant (P := fun c => c.account.blotter.pending = b.account.blotter.pending)
    (fun c i d hc hd => ?_) items b rfl
  obtain ⟨a, ha, rfl⟩ := takeItem_ok hd
  rw [book_account, Account.take_pending ha, hc]

/-- Executions are logged, and the numbers that came to rest are noted. -/
theorem feed_logs : ∀ {items : List (StepItem α)} {b c : Broker σ α},
    feed takeItem b items = (c, none) → c.tradeLog = b.tradeLog ++ executionsIn items ∧
      c.insertedLastTick = b.insertedLastTick ++ (placementsIn items).map (·.1)
  | [], b, c, h => by
    obtain ⟨rfl, -⟩ := Prod.mk.inj h
    exact ⟨(List.append_nil _).symm, (List.append_nil _).symm⟩
  | i :: items, b, c, h => by
    cases hi : b.takeItem i with
    | error cause =>
      rw [feed_cons_error hi] at h
      cases h
    | ok d =>
      rw [feed_cons_ok hi] at h
      obtain ⟨a, -, rfl⟩ := takeItem_ok hi
      obtain ⟨hlog, hrest⟩ := feed_logs h
      rw [hlog, hrest]
      cases i with
      | execution e => exact ⟨List.append_assoc .., rfl⟩
      | placement id order => exact ⟨rfl, List.append_assoc ..⟩

/-- The account goes through the items in the same way as the broker. -/
theorem takeItem_account (b : Broker σ α) (i : StepItem α) :
    b.account.take i = (b.takeItem i).map (·.account) := by
  rw [takeItem_eq]
  cases b.account.take i with
  | error cause => rfl
  | ok a => exact congrArg Except.ok (book_account b a i).symm

theorem feed_account (items : List (StepItem α)) (b : Broker σ α) :
    feed Account.take b.account items =
      ((feed takeItem b items).1.account, (feed takeItem b items).2) :=
  feed_hom (f := fun b : Broker σ α => b.account) takeItem_account items b

theorem snags_account (items : List (StepItem α)) (b : Broker σ α) :
    snags Account.take b.account items = snags takeItem b items :=
  snags_hom (f := fun b : Broker σ α => b.account) takeItem_account items b

theorem passing_account (items : List (StepItem α)) (b : Broker σ α) :
    passing Account.take b.account items = passing takeItem b items :=
  passing_hom (f := fun b : Broker σ α => b.account) takeItem_account items b

theorem feed_executions (es : List (Execution α)) (b : Broker σ α) :
    feed takeItem b (es.map .execution) =
      ((feed takeExecution b es).1,
        (feed takeExecution b es).2.map fun stop => (stop.1, stop.2.map .execution)) :=
  feed_map (fun _ _ => rfl) es b

theorem feed_placements (ps : List (OrderId × Order α)) (b : Broker σ α) :
    feed takeItem b (ps.map fun p => .placement p.1 p.2) =
      ((feed takePlacement b ps).1,
        (feed takePlacement b ps).2.map fun stop =>
          (stop.1, stop.2.map fun p => .placement p.1 p.2)) :=
  feed_map (fun _ _ => rfl) ps b

/-- **A step is applied item by item.** -/
theorem applyStep_eq (b : Broker σ α) (step : Step α) (report : TickReport α) :
    b.applyStep step report =
      match feed takeItem b step.items with
      | (c, some (cause, rest)) =>
        (.error (.ofDiscrepancy cause), { c with held := some (step.keeping rest) })
      | (c, none) =>
        c.conclude step
          { report with executed := step.executed, inserted := step.inserted.map (·.1) } := by
  have hexec := feed_executions step.executed b
  unfold applyStep Step.items
  cases he : feed takeExecution b step.executed with
  | mk c stop =>
    rw [he] at hexec
    cases stop with
    | some stop =>
      rw [feed_append_stopped hexec]
      simp only [Step.keeping, executionsIn_append, placementsIn_append, executionsIn_executions,
        executionsIn_placements, placementsIn_executions, placementsIn_placements,
        List.append_nil, List.nil_append]
    | none =>
      rw [feed_append hexec, feed_placements]
      cases hp : feed takePlacement c step.inserted with
      | mk d stop =>
        cases stop with
        | some stop =>
          simp only [hp, Option.map_some, Step.keeping, executionsIn_placements,
            placementsIn_placements]
        | none => simp only [hp, Option.map_none]

end Broker
end Brokerage
