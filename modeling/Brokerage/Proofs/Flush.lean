/-
# A flush sorts the pending orders

A flush takes the pending orders out and sorts them into those to send and those that are
rejected, each kind in the order of insertion, so that the two lists woven together again are the
pending orders (`Ledger.woven_sift`). The objection to an order is a matter of that order and the
ledger. So orders that are flushed at two times, with the ledger the same, are sorted as if they
had been flushed at once (`Ledger.sift_append`), and accepted orders that come back, as they do
when their submission fails, are accepted once more (`Ledger.sift_of_no_objection`,
`Blotter.flush_partitions`).

Key definitions: `Woven`, `Blotter.enqueueAll`.
Key theorems: `Woven.sublists`, `Ledger.woven_sift`, `Ledger.mem_accepted_iff`,
`Ledger.sift_append`, `Ledger.sift_of_no_objection`, `Blotter.enqueueAll_eq`,
`Blotter.flush_partitions`.
-/
import Brokerage.Proofs.Blotter
import Brokerage.Proofs.Exact

namespace Brokerage

/-- Two lists woven into one: each keeps its order. -/
inductive Woven {γ : Type} : List γ → List γ → List γ → Prop
  | nil : Woven [] [] []
  | left {x : γ} {xs ys zs : List γ} (h : Woven xs ys zs) : Woven (x :: xs) ys (x :: zs)
  | right {y : γ} {xs ys zs : List γ} (h : Woven xs ys zs) : Woven xs (y :: ys) (y :: zs)

theorem Woven.sublists {γ : Type} {xs ys zs : List γ} (h : Woven xs ys zs) :
    xs.Sublist zs ∧ ys.Sublist zs := by
  induction h with
  | nil => exact ⟨.slnil, .slnil⟩
  | left _ ih => exact ⟨ih.1.cons_cons _, ih.2.cons _⟩
  | right _ ih => exact ⟨ih.1.cons _, ih.2.cons_cons _⟩

variable {α : Type} [Amount α]

/-- One flush and then another. -/
instance : Append (Flush α) where
  append f g := ⟨f.accepted ++ g.accepted, f.rejected ++ g.rejected⟩

namespace Ledger

variable {l : Ledger α} {order : Order α} {orders : List (Order α)}

/-! ### One order after another -/

theorem sift_cons_accepted (h : l.refusal? order = none) (orders : List (Order α)) :
    l.sift (order :: orders) = ⟨order :: (l.sift orders).accepted, (l.sift orders).rejected⟩ := by
  rw [sift, h]

theorem sift_cons_rejected {reason : Refusal α} (h : l.refusal? order = some reason)
    (orders : List (Order α)) : l.sift (order :: orders) =
      ⟨(l.sift orders).accepted, ⟨order, reason⟩ :: (l.sift orders).rejected⟩ := by
  rw [sift, h]

/-- **The orders that are accepted and those that are rejected,** woven together, are the orders
that were sorted. -/
theorem woven_sift (l : Ledger α) : ∀ orders : List (Order α),
    Woven (l.sift orders).accepted ((l.sift orders).rejected.map (·.order)) orders
  | [] => .nil
  | order :: orders => by
    have ih := woven_sift l orders
    cases h : l.refusal? order with
    | none =>
      rw [sift_cons_accepted h]
      exact ih.left
    | some reason =>
      rw [sift_cons_rejected h]
      exact ih.right

/-- **The orders before do not matter to those after,** nor the other way round. -/
theorem sift_append (l : Ledger α) : ∀ orders more : List (Order α),
    l.sift (orders ++ more) = l.sift orders ++ l.sift more
  | [], _ => rfl
  | order :: orders, more => by
    have ih := sift_append l orders more
    cases h : l.refusal? order with
    | none =>
      rw [List.cons_append, sift_cons_accepted h, sift_cons_accepted h, ih]
      rfl
    | some reason =>
      rw [List.cons_append, sift_cons_rejected h, sift_cons_rejected h, ih]
      rfl

theorem sift_of_no_objection : ∀ {orders : List (Order α)},
    (∀ order ∈ orders, l.refusal? order = none) → l.sift orders = ⟨orders, []⟩
  | [], _ => rfl
  | order :: orders, h => by
    have ih := sift_of_no_objection fun other hother => h other (List.mem_cons_of_mem order hother)
    rw [sift_cons_accepted (h order List.mem_cons_self), ih]

/-! ### The verdict -/

/-- An order is accepted if the ledger does not object to it. -/
theorem mem_accepted_iff :
    order ∈ (l.sift orders).accepted ↔ order ∈ orders ∧ l.refusal? order = none := by
  rw [sift_accepted, List.mem_filter, Option.isNone_iff_eq_none]

theorem refusal?_of_mem_rejected {r : Rejection α} (h : r ∈ (l.sift orders).rejected) :
    l.refusal? r.order = some r.reason := by
  rw [sift_rejected] at h
  obtain ⟨order, -, hr⟩ := List.mem_filterMap.mp h
  obtain ⟨reason, hreason, rfl⟩ := Option.map_eq_some_iff.mp hr
  exact hreason

end Ledger

namespace Blotter

/-- The blotter once orders have been inserted, one after the other. -/
def enqueueAll (b : Blotter α) (orders : List (Order α)) : Blotter α :=
  orders.foldl enqueue b

theorem enqueueAll_eq : ∀ (orders : List (Order α)) (b : Blotter α),
    b.enqueueAll orders = { b with pending := b.pending ++ orders }
  | [], b => by
    rw [List.append_nil]
    rfl
  | order :: orders, b => by
    have ih := enqueueAll_eq orders (b.enqueue order)
    show (b.enqueue order).enqueueAll orders = _
    rw [ih]
    show { b with pending := (b.pending ++ [order]) ++ orders } = _
    rw [List.append_assoc]
    rfl

theorem flush_eq (b : Blotter α) (l : Ledger α) :
    b.flush l = (l.sift b.pending, { b with pending := [] }) := rfl

/-- **A flush is a stable partition of the pending orders.** It leaves none pending and the
resting orders as they are. What it accepts and what it rejects are sublists of the pending
orders, which woven together are all of them; the ledger has no objection to the first, and to
the others the one that is given. The verdict on an order is the same whatever else is pending or
resting. Orders that are inserted and flushed later are sorted as if they had been flushed with
the others, and if the accepted orders are inserted again, a flush accepts them all, in the same
order, and rejects nothing. -/
theorem flush_partitions (b : Blotter α) (l : Ledger α) :
    ((b.flush l).2.pending = [] ∧ (b.flush l).2.resting = b.resting) ∧
    Woven (b.flush l).1.accepted ((b.flush l).1.rejected.map (·.order)) b.pending ∧
    ((b.flush l).1.accepted.Sublist b.pending ∧
      ((b.flush l).1.rejected.map (·.order)).Sublist b.pending) ∧
    (∀ order ∈ (b.flush l).1.accepted, l.refusal? order = none) ∧
    (∀ r ∈ (b.flush l).1.rejected, l.refusal? r.order = some r.reason) ∧
    (∀ (c : Blotter α) (order : Order α), order ∈ b.pending → order ∈ c.pending →
      (order ∈ (b.flush l).1.accepted ↔ order ∈ (c.flush l).1.accepted)) ∧
    (∀ orders, ((b.enqueueAll orders).flush l).1 =
      (b.flush l).1 ++ (((b.flush l).2.enqueueAll orders).flush l).1) ∧
    ((b.flush l).2.enqueueAll (b.flush l).1.accepted).flush l =
      (⟨(b.flush l).1.accepted, []⟩, (b.flush l).2) := by
  have hwoven := l.woven_sift b.pending
  have hverdict : ∀ order ∈ (l.sift b.pending).accepted, l.refusal? order = none :=
    fun order h => (Ledger.mem_accepted_iff.mp h).2
  refine ⟨⟨rfl, rfl⟩, hwoven, hwoven.sublists, hverdict,
    fun r h => Ledger.refusal?_of_mem_rejected h, fun c order hb hc => ?_, fun orders => ?_, ?_⟩
  · simp only [flush_eq, Ledger.mem_accepted_iff, hb, hc, true_and]
  · simp only [flush_eq, enqueueAll_eq, Ledger.sift_append, List.nil_append]
  · simp only [flush_eq, enqueueAll_eq, List.nil_append, Ledger.sift_of_no_objection hverdict]

/-- A sell without a position is rejected, behind and before a buy. The buys alone, inserted
again, are both accepted. -/
theorem sample_flush_partitions :
    ((empty.enqueueAll [sampleOrder, sampleSell, sampleOrder]).flush (.ofCash 0)).1.accepted =
      [sampleOrder, sampleOrder] ∧
    (∀ order ∈ [sampleOrder, sampleOrder],
      (Ledger.ofCash (0 : Rat)).refusal? order = none) ∧
    (((empty.enqueueAll [sampleOrder, sampleSell, sampleOrder]).flush (.ofCash 0)).2.enqueueAll
      [sampleOrder, sampleOrder]).flush (.ofCash 0) =
        (⟨[sampleOrder, sampleOrder], []⟩, empty) := by
  obtain ⟨-, -, -, haccepted, -, -, -, hagain⟩ := flush_partitions
    (empty.enqueueAll [sampleOrder, sampleSell, sampleOrder]) (.ofCash (0 : Rat))
  have hsorted : ((empty.enqueueAll [sampleOrder, sampleSell, sampleOrder]).flush
      (.ofCash 0)).1.accepted = [sampleOrder, sampleOrder] := by
    decide +kernel
  rw [hsorted] at haccepted hagain
  exact ⟨hsorted, haccepted, hagain⟩

end Blotter
end Brokerage
