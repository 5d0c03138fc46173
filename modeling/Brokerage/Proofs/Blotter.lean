/-
# The blotter, operation by operation

What each operation does to the resting orders, and that none of them looks at
the orders still pending (`reconcile_buffering`, `place_buffering`). A flush
splits the pending orders and keeps their order.

Key definitions: `Blotter.buffering`, `Account.buffering`.
Key theorems: `Blotter.cancel_eq`, `Blotter.modify_eq`,
`Blotter.cancel_error_iff`, `Blotter.modify_error_iff`,
`Account.reconcile_buffering`, `Account.place_buffering`, `Ledger.sift_accepted`,
`Ledger.sift_rejected`.
-/
import Brokerage.Account

namespace Brokerage

variable {α : Type} [Amount α]

/-! ### Flushing -/

namespace Ledger

theorem sift_accepted (l : Ledger α) : ∀ orders : List (Order α),
    (l.sift orders).accepted = orders.filter fun order => (l.refusal? order).isNone
  | [] => rfl
  | order :: orders => by
    have ih := sift_accepted l orders
    rw [sift]
    cases h : l.refusal? order with
    | none => rw [List.filter_cons_of_pos (by rw [h]; rfl), ← ih]
    | some reason => rw [List.filter_cons_of_neg (by rw [h]; simp), ← ih]

theorem sift_rejected (l : Ledger α) : ∀ orders : List (Order α),
    (l.sift orders).rejected =
      orders.filterMap fun order => (l.refusal? order).map fun reason => ⟨order, reason⟩
  | [] => rfl
  | order :: orders => by
    have ih := sift_rejected l orders
    rw [sift]
    cases h : l.refusal? order with
    | none => rw [List.filterMap_cons_none (by rw [h]; rfl), ← ih]
    | some reason => rw [List.filterMap_cons_some (by rw [h]; rfl), ← ih]

end Ledger

/-! ### Resting orders -/

namespace Blotter

theorem cancel_eq (b : Blotter α) (e : Execution α) : b.cancel e =
    match e.reference with
    | none => .error (.noReference e.order e.kind)
    | some target =>
      if b.isResting target then
        if b.isResting e.order then
          .ok { b with resting := (b.resting.erase e.order).erase target }
        else .error (.instructionUntracked e.order)
      else .error (.targetNotResting target e.kind) := by
  unfold cancel Blotter.target
  cases e.reference with
  | none => rfl
  | some target =>
    simp only
    by_cases h : b.isResting target = true
    · rw [if_pos h, if_pos h]
      rfl
    · rw [if_neg h, if_neg h]
      rfl

theorem modify_eq (b : Blotter α) (e : Execution α) : b.modify e =
    match e.reference with
    | none => .error (.noReference e.order e.kind)
    | some target =>
      if b.isResting target then
        match (b.resting.erase e.order).get? target with
        | none => .ok { b with resting := b.resting.erase e.order }
        | some entry =>
          if isSpent (entry.remaining + e.quantity)
              (larger entry.remaining (magnitude e.quantity)) then
            .ok { b with resting := (b.resting.erase e.order).erase target }
          else
            let kept : Resting α := { entry with remaining := entry.remaining + e.quantity }
            .ok { b with resting := (b.resting.erase e.order).insert target kept }
      else .error (.targetNotResting target e.kind) := by
  unfold modify Blotter.target
  cases e.reference with
  | none => rfl
  | some target =>
    simp only
    by_cases h : b.isResting target = true
    · rw [if_pos h, if_pos h]
      rfl
    · rw [if_neg h, if_neg h]
      rfl

theorem cancel_error_iff (b : Blotter α) (e : Execution α) :
    (∃ cause, b.cancel e = .error cause) ↔
      (¬ ∃ target, e.reference = some target ∧ b.isResting target = true) ∨
        b.isResting e.order = false := by
  rw [cancel_eq]
  cases e.reference with
  | none => simp
  | some target =>
    cases ht : b.isResting target <;> cases b.isResting e.order <;> simp [ht]

theorem modify_error_iff (b : Blotter α) (e : Execution α) :
    (∃ cause, b.modify e = .error cause) ↔
      ¬ ∃ target, e.reference = some target ∧ b.isResting target = true := by
  rw [modify_eq]
  cases e.reference with
  | none => simp
  | some target =>
    cases ht : b.isResting target with
    | false => simp [ht]
    | true =>
      refine ⟨fun ⟨cause, hc⟩ => ?_, fun h => absurd ⟨target, rfl, ht⟩ h⟩
      simp only [ht, if_true] at hc
      split at hc
      · cases hc
      · split at hc <;> cases hc

/-- The blotter with other orders pending. -/
def buffering (b : Blotter α) (orders : List (Order α)) : Blotter α :=
  { b with pending := orders }

variable (b : Blotter α) (orders : List (Order α))

theorem place_buffering (id : OrderId) (order : Order α) :
    (b.buffering orders).place id order = (b.place id order).map (·.buffering orders) := by
  unfold place
  show (if b.isResting id then _ else _) = _
  split <;> rfl

theorem fill_buffering (e : Execution α) :
    ((b.buffering orders).fill e).2 = (b.fill e).2.buffering orders := by
  unfold fill buffering
  cases b.resting.get? e.order with
  | none => rfl
  | some resting => simp only; split <;> rfl

theorem cancel_buffering (e : Execution α) :
    (b.buffering orders).cancel e = (b.cancel e).map (·.buffering orders) := by
  have hresting : ∀ id, (b.buffering orders).isResting id = b.isResting id := fun _ => rfl
  rw [cancel_eq, cancel_eq]
  cases e.reference with
  | none => rfl
  | some target =>
    simp only [hresting]
    split
    · split <;> rfl
    · rfl

theorem modify_buffering (e : Execution α) :
    (b.buffering orders).modify e = (b.modify e).map (·.buffering orders) := by
  have hresting : ∀ id, (b.buffering orders).isResting id = b.isResting id := fun _ => rfl
  have hkept : (b.buffering orders).resting = b.resting := rfl
  rw [modify_eq, modify_eq]
  cases e.reference with
  | none => rfl
  | some target =>
    simp only [hresting, hkept]
    split
    · cases (b.resting.erase e.order).get? target with
      | none => rfl
      | some entry => simp only; split <;> rfl
    · rfl

end Blotter

/-! ### The account -/

namespace Account

/-- The account with other orders pending. -/
def buffering (a : Account α) (orders : List (Order α)) : Account α :=
  { a with blotter := a.blotter.buffering orders }

theorem buffering_self (a : Account α) : a.buffering a.blotter.pending = a := rfl

variable (a : Account α) (orders : List (Order α))

theorem reconcile_buffering (e : Execution α) :
    (a.buffering orders).reconcile e = (a.reconcile e).map (·.buffering orders) := by
  have hledger : (a.buffering orders).ledger = a.ledger := rfl
  have hblotter : (a.buffering orders).blotter = a.blotter.buffering orders := rfl
  unfold reconcile
  cases e.kind with
  | buy | sell =>
    simp only [hledger, hblotter, Blotter.fill_buffering]
    cases a.ledger.apply e <;> rfl
  | cancel =>
    simp only [hblotter, Blotter.cancel_buffering]
    cases a.blotter.cancel e <;> rfl
  | modify =>
    simp only [hblotter, Blotter.modify_buffering]
    cases a.blotter.modify e <;> rfl

theorem place_buffering (id : OrderId) (order : Order α) :
    (a.buffering orders).place id order = (a.place id order).map (·.buffering orders) := by
  have hblotter : (a.buffering orders).blotter = a.blotter.buffering orders := rfl
  unfold place
  rw [hblotter, Blotter.place_buffering]
  cases a.blotter.place id order <;> rfl

end Account
end Brokerage
