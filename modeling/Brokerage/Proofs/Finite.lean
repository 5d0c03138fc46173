/-
# Finite accounts

The initial cash is finite, and so are all quantities and values that pass the check of a
reply. The sums over them are not checked. An item that is taken of a finite account leaves
it finite if and only if no exact sum that it makes is out of the range of doubles
(`Account.finite_take_iff`). Such a sum can be the cash after a sell, a position after a
fill, or what is open of an order after a modify. The cash after a buy and what is open
after a fill are in range, since an amount above zero is lowered there.

Whatever overflows, no number is ever undefined, and neither the cash nor what is open of
an order is below zero (`Account.Numeric.take`).

Key definitions: `Account.Finite`, `Account.Numeric`, `Execution.Overflows`,
`StepItem.Overflows`, `Account.reached`, `Broker.Retraces`.
Key theorems: `Account.Numeric.take`, `Account.finite_take_iff`,
`Broker.history_operated`, `Broker.finite_unless_overflow`.
-/
import Brokerage.Proofs.Accounting
import Brokerage.Proofs.Overflow
import Brokerage.Proofs.Resting
import Brokerage.Proofs.Validity

namespace Brokerage

open Double
open Float.Model.UnpackedFloat (Sign)

namespace Account

/-- The cash, every held position and what is open of every resting order are finite. -/
structure Finite (a : Account Float) : Prop where
  cash : a.ledger.cash.isFinite = true
  position : ∀ {symbol quantity}, a.ledger.holdings.get? symbol = some quantity →
    quantity.isFinite = true
  remaining : ∀ {id entry}, a.blotter.resting.get? id = some entry →
    entry.remaining.isFinite = true

/-- No position is undefined, and the cash and what is open of every resting order are
numbers that are not below zero. -/
structure Numeric (a : Account Float) : Prop where
  cash : 0 ≤ a.ledger.cash
  position : ∀ {symbol quantity}, a.ledger.holdings.get? symbol = some quantity →
    quantity.isNaN = false
  remaining : ∀ {id entry}, a.blotter.resting.get? id = some entry → 0 ≤ entry.remaining

end Account

/-- An exact sum that the execution makes of an account is out of the range of doubles. -/
inductive Execution.Overflows (a : Account Float) (e : Execution Float) : Prop
  | cash (hkind : e.kind = .sell)
    (h : overflow ≤ rational a.ledger.cash + rational e.value)
  | long (hkind : e.kind = .buy)
    (h : overflow ≤ rational (a.ledger.position e.symbol) + rational e.quantity)
  | short (hkind : e.kind = .sell)
    (h : rational (a.ledger.position e.symbol) - rational e.quantity ≤ -overflow)
  | remaining (hkind : e.kind = .modify) (target : OrderId) (entry : Resting Float)
    (hreference : e.reference = some target) (hother : e.order ≠ target)
    (hresting : a.blotter.resting.get? target = some entry)
    (h : overflow ≤ rational entry.remaining + rational e.quantity)

namespace StepItem

/-- The item is an execution that overflows; placements make no sums. -/
def Overflows (a : Account Float) : StepItem Float → Prop
  | .execution e => e.Overflows a
  | .placement _ _ => False

/-- An execution among the items of a step has passed the check of the reply. -/
def Sound (i : StepItem Float) : Prop :=
  ∀ e, i = .execution e → ¬ e.Unsound

/-- An order rests as it was placed, or as it was adjusted, or as before. -/
theorem follow_cases {i : StepItem Float} {id : OrderId} {entry : Option (Resting Float)}
    {r : Resting Float} (h : i.follow id entry = some r) :
    (∃ order, i = .placement id order ∧ r = ⟨order, order.quantity⟩) ∨
      (∃ e before, i = .execution e ∧ ¬ e.Withdraws id ∧ e.Adjusts id ∧ entry = some before ∧
        isSpent (e.leaves before.remaining) (e.scale before.remaining) = false ∧
        r = { before with remaining := e.leaves before.remaining }) ∨
      entry = some r := by
  cases i with
  | execution e =>
    replace h : e.follow id entry = some r := h
    unfold Execution.follow at h
    split at h
    · cases h
    · rename_i hkept
      split at h
      · rename_i hadjusts
        obtain ⟨before, hbefore, hadjust⟩ := Option.bind_eq_some_iff.mp h
        unfold Execution.adjust at hadjust
        split at hadjust
        · cases hadjust
        · rename_i hopen
          cases hadjust
          exact .inr (.inl ⟨e, before, rfl, hkept, hadjusts, hbefore, by simpa using hopen, rfl⟩)
      · exact .inr (.inr h)
  | placement other order =>
    replace h : (if other = id then some ⟨order, order.quantity⟩ else entry) = some r := h
    split at h
    · rename_i hid
      cases h
      exact .inl ⟨order, by rw [hid], rfl⟩
    · exact .inr (.inr h)

end StepItem

/-! ### Amounts that come in -/

/-- The amounts of an execution that passed the check are finite, those of a fill are not
below zero. -/
theorem Execution.amounts_of_sound {e : Execution Float} (h : ¬ e.Unsound) :
    e.quantity.isFinite = true ∧ e.value.isFinite = true ∧
      (e.kind.isFill = true → 0 ≤ e.quantity ∧ 0 ≤ e.value) := by
  obtain ⟨hquantity, hrest⟩ := not_or.mp h
  obtain ⟨hvalue, hfill⟩ := not_or.mp hrest
  have hquantity' : e.quantity.isFinite = true := (Bool.not_eq_false _).mp hquantity
  have hvalue' : e.value.isFinite = true := (Bool.not_eq_false _).mp hvalue
  refine ⟨hquantity', hvalue', fun hkind => ?_⟩
  exact ⟨(not_lt_zero_iff hquantity').mp fun hlt => hfill ⟨hkind, .inl hlt⟩,
    (not_lt_zero_iff hvalue').mp fun hlt => hfill ⟨hkind, .inr hlt⟩⟩

/-- What an order asks for is finite and not below zero. -/
theorem Order.quantity_finite (order : Order Float) :
    order.quantity.isFinite = true ∧ 0 ≤ order.quantity := by
  obtain ⟨hfinite, hsign⟩ := order.valid.quantity
  refine ⟨hfinite, ?_⟩
  split at hsign
  · exact hsign
  · refine (not_lt_zero_iff hfinite).mp fun hlt => ?_
    have hzero := whole?_eq_some.mp whole?_zero
    rw [lt_number (number?_rational hfinite) hzero] at hlt
    rw [lt_number hzero (number?_rational hfinite)] at hsign
    exact lt_asymm hlt hsign

namespace Execution

/-- What a fill adds to the cash and to the position in its symbol. -/
inductive Moves (e : Execution Float) : Float → Float → Prop
  | buy (hkind : e.kind = .buy) : e.Moves (-e.value) e.quantity
  | sell (hkind : e.kind = .sell) : e.Moves e.value (-e.quantity)

namespace Moves

variable {e : Execution Float} {income change cash held : Float}

theorem isFinite (h : e.Moves income change) (hsound : ¬ e.Unsound) :
    income.isFinite = true ∧ change.isFinite = true := by
  obtain ⟨hquantity, hvalue, -⟩ := amounts_of_sound hsound
  cases h with
  | buy => exact ⟨(rational_neg hvalue).1, hquantity⟩
  | sell => exact ⟨hvalue, (rational_neg hquantity).1⟩

/-- Only a sell takes the cash out of range. -/
theorem cash_isFinite_iff (h : e.Moves income change) (hsound : ¬ e.Unsound)
    (hcash : cash.isFinite = true) (hcash0 : 0 ≤ cash) : (cash + income).isFinite = true ↔
      ¬ (e.kind = .sell ∧ overflow ≤ rational cash + rational e.value) := by
  obtain ⟨-, hvalue, hsigns⟩ := amounts_of_sound hsound
  cases h with
  | buy hkind =>
    have hvalue0 := (hsigns (by rw [hkind]; rfl)).2
    refine iff_of_true ?_ fun ⟨hsell, _⟩ => by rw [hkind] at hsell; cases hsell
    rw [← sub_eq_add_opposite]
    exact isFinite_sub_of_nonneg hcash hvalue hcash0 hvalue0
  | sell hkind =>
    have hbelow := rational_nonneg hcash hcash0
    have hincome := rational_nonneg hvalue (hsigns (by rw [hkind]; rfl)).2
    rw [isFinite_add_iff hcash hvalue, abs_of_nonneg (add_nonneg hbelow hincome), ← not_le]
    exact not_congr (iff_and_self.mpr fun _ => hkind)

/-- A buy takes a position out of range above zero, a sell below. -/
theorem position_isFinite_iff (h : e.Moves income change) (hsound : ¬ e.Unsound)
    (hheld : held.isFinite = true) : (held + change).isFinite = true ↔
      ¬ (e.kind = .buy ∧ overflow ≤ rational held + rational e.quantity) ∧
        ¬ (e.kind = .sell ∧ rational held - rational e.quantity ≤ -overflow) := by
  obtain ⟨hquantity, -, hsigns⟩ := amounts_of_sound hsound
  have hbounds := abs_lt.mp (rational_bounds hheld)
  cases h with
  | buy hkind =>
    have hpos := rational_nonneg hquantity (hsigns (by rw [hkind]; rfl)).1
    rw [isFinite_add_iff hheld hquantity, abs_lt]
    simp only [hkind, true_and, reduceCtorEq, false_and, not_false_eq_true, and_true, not_le]
    exact and_iff_right (by linarith)
  | sell hkind =>
    have hpos := rational_nonneg hquantity (hsigns (by rw [hkind]; rfl)).1
    rw [← sub_eq_add_opposite, isFinite_sub_iff hheld hquantity, abs_lt]
    simp only [hkind, true_and, reduceCtorEq, false_and, not_false_eq_true, not_le]
    exact and_iff_left (by linarith)

end Moves

theorem leaves_of_modify {e : Execution Float} (hkind : e.kind = .modify) (remaining : Float) :
    e.leaves remaining = remaining + e.quantity := by
  unfold leaves
  rw [hkind]
  rfl

theorem isNaN_leaves {e : Execution Float} {remaining : Float} (hsound : ¬ e.Unsound)
    (h : remaining.isNaN = false) : (e.leaves remaining).isNaN = false := by
  obtain ⟨hquantity, -, -⟩ := amounts_of_sound hsound
  unfold leaves
  split
  · rw [sub_eq_add_opposite]
    exact isNaN_add h (rational_neg hquantity).1
  · exact isNaN_add h hquantity

/-- What is left open of an order is finite, unless a modify takes it out of range. -/
theorem leaves_fate {e : Execution Float} {id : OrderId} {remaining : Float}
    (hadjusts : e.Adjusts id) (hsound : ¬ e.Unsound) (hremaining : remaining.isFinite = true)
    (hremaining0 : 0 ≤ remaining) : (e.leaves remaining).isFinite = true ∨
      (e.kind = .modify ∧ overflow ≤ rational remaining + rational e.quantity) := by
  obtain ⟨hquantity, -, hsigns⟩ := amounts_of_sound hsound
  rcases hadjusts with ⟨hfill, -⟩ | ⟨hkind, -⟩
  · have hleaves : e.leaves remaining = remaining - e.quantity := if_pos hfill
    rw [hleaves]
    exact .inl (isFinite_sub_of_nonneg hremaining hquantity hremaining0 (hsigns hfill).1)
  · rw [leaves_of_modify hkind]
    rcases add_fate hremaining hquantity with ⟨-, h⟩ | ⟨hover, -⟩ | ⟨hunder, -⟩
    · exact .inl h
    · exact .inr ⟨hkind, hover⟩
    · have hpos := rational_nonneg hremaining hremaining0
      have hbounds := abs_lt.mp (rational_bounds hquantity)
      linarith

end Execution

/-! ### The ledger -/

namespace Ledger

variable {l m : Ledger Float} {e : Execution Float}

/-- What a fill that is booked leaves. -/
theorem apply_of_moves {income change : Float} (hmoves : e.Moves income change)
    (h : l.apply e = .ok m) : ¬ l.cash + income < 0 ∧
      m = ⟨l.cash + income, l.adjusted e.symbol change⟩ := by
  unfold apply at h
  cases hmoves with
  | buy hkind =>
    simp only [hkind] at h
    rw [sub_eq_add_opposite] at h
    exact settle_ok h
  | sell hkind =>
    simp only [hkind] at h
    exact settle_ok h

/-- A fill moves the cash and one position; any other execution moves nothing. -/
theorem apply_moves (h : l.apply e = .ok m) : (e.kind.isFill = false ∧ m = l) ∨
    ∃ income change, e.Moves income change ∧ ¬ l.cash + income < 0 ∧
      m = ⟨l.cash + income, l.adjusted e.symbol change⟩ := by
  cases hkind : e.kind with
  | buy => exact .inr ⟨_, _, .buy hkind, apply_of_moves (.buy hkind) h⟩
  | sell => exact .inr ⟨_, _, .sell hkind, apply_of_moves (.sell hkind) h⟩
  | cancel | modify =>
    have hidle : e.kind.isFill = false := by rw [hkind]; rfl
    rw [apply_of_not_fill l hidle] at h
    exact .inl ⟨rfl, (Except.ok.inj h).symm⟩

/-- An entry has been changed or is as before. -/
theorem adjusted_cases {symbol other : Symbol} {change quantity : Float}
    (h : (l.adjusted symbol change).get? other = some quantity) :
    (symbol = other ∧ quantity = l.position symbol + change) ∨
      l.holdings.get? other = some quantity := by
  rw [get?_adjusted] at h
  split at h
  · rename_i hsymbol
    split at h
    · cases h
    · exact .inl ⟨hsymbol, (Option.some.inj h).symm⟩
  · exact .inr h

/-- **A sum that is infinite is entered.** Beside finite quantities it is not flat. -/
theorem adjusted_infinite {symbol : Symbol} {change : Float} {s : Sign}
    (hposition : (l.position symbol).isFinite = true) (hchange : change.isFinite = true)
    (h : IsInfinite (l.position symbol + change) s) :
    (l.adjusted symbol change).get? symbol = some (l.position symbol + change) := by
  have hscale := isFinite_larger (isFinite_magnitude hposition) (isFinite_magnitude hchange)
  rw [get?_adjusted, if_pos rfl, isFlat_of_finite_scale h hscale]
  rfl

end Ledger

/-! ### Numbers -/

namespace Account

variable {a a' : Account Float} {i : StepItem Float}

/-- An item leaves the ledger as it is, or it is a fill. -/
theorem take_ledger (h : a.take i = .ok a') : a'.ledger = a.ledger ∨
    ∃ e income change, i = .execution e ∧ e.Moves income change ∧ ¬ a.ledger.cash + income < 0 ∧
      a'.ledger = ⟨a.ledger.cash + income, a.ledger.adjusted e.symbol change⟩ := by
  cases i with
  | execution e =>
    rcases Ledger.apply_moves (reconcile_ledger h) with ⟨-, hsame⟩ |
      ⟨income, change, hmoves, hcash, hm⟩
    · exact .inl hsame
    · exact .inr ⟨e, income, change, rfl, hmoves, hcash, hm⟩
  | placement id order => exact .inl (place_ledger h)

theorem Numeric.held (h : a.Numeric) (symbol : Symbol) :
    (a.ledger.position symbol).isNaN = false :=
  Ledger.position_of (P := fun x : Float => x.isNaN = false) rfl h.position symbol

theorem Finite.held (h : a.Finite) (symbol : Symbol) :
    (a.ledger.position symbol).isFinite = true :=
  Ledger.position_of (P := fun x : Float => x.isFinite = true) rfl h.position symbol

/-- **Nothing ever becomes undefined or falls below zero.** -/
theorem Numeric.take (h : a.Numeric) (hsound : i.Sound) (ht : a.take i = .ok a') : a'.Numeric := by
  have hledger : 0 ≤ a'.ledger.cash ∧ ∀ {symbol quantity},
      a'.ledger.holdings.get? symbol = some quantity → quantity.isNaN = false := by
    rcases take_ledger ht with hsame | ⟨e, income, change, rfl, hmoves, hcash, hm⟩
    · rw [hsame]
      exact ⟨h.cash, h.position⟩
    · obtain ⟨hincome, hchange⟩ := hmoves.isFinite (hsound e rfl)
      rw [hm]
      refine ⟨zero_le_of_not_lt (isNaN_add (isNaN_of_zero_le h.cash) hincome) hcash, ?_⟩
      intro symbol quantity hentry
      rcases Ledger.adjusted_cases hentry with ⟨-, rfl⟩ | hbefore
      · exact isNaN_add (h.held e.symbol) hchange
      · exact h.position hbefore
  refine ⟨hledger.1, hledger.2, fun {id entry} hentry => ?_⟩
  rw [take_follow id ht] at hentry
  rcases StepItem.follow_cases hentry with ⟨order, -, rfl⟩ |
    ⟨e, before, rfl, -, -, hbefore, hopen, rfl⟩ | hbefore
  · exact order.quantity_finite.2
  · exact zero_le_of_not_le (Execution.isNaN_leaves (hsound e rfl)
      (isNaN_of_zero_le (h.remaining hbefore))) (isSpent_eq_false_iff.mp hopen).1
  · exact h.remaining hbefore

/-! ### Finite numbers -/

/-- An item that does not overflow leaves a finite account finite. -/
theorem Finite.take (h : a.Finite) (hn : a.Numeric) (hsound : i.Sound) (ht : a.take i = .ok a')
    (hover : ¬ i.Overflows a) : a'.Finite := by
  have hledger : a'.ledger.cash.isFinite = true ∧ ∀ {symbol quantity},
      a'.ledger.holdings.get? symbol = some quantity → quantity.isFinite = true := by
    rcases take_ledger ht with hsame | ⟨e, income, change, rfl, hmoves, -, hm⟩
    · rw [hsame]
      exact ⟨h.cash, h.position⟩
    · rw [hm]
      refine ⟨(hmoves.cash_isFinite_iff (hsound e rfl) h.cash hn.cash).mpr
        fun ⟨hkind, hsum⟩ => hover (.cash hkind hsum), ?_⟩
      intro symbol quantity hentry
      rcases Ledger.adjusted_cases hentry with ⟨-, rfl⟩ | hbefore
      · exact (hmoves.position_isFinite_iff (hsound e rfl) (h.held e.symbol)).mpr
          ⟨fun ⟨hkind, hsum⟩ => hover (.long hkind hsum),
            fun ⟨hkind, hsum⟩ => hover (.short hkind hsum)⟩
      · exact h.position hbefore
  refine ⟨hledger.1, hledger.2, fun {id entry} hentry => ?_⟩
  rw [take_follow id ht] at hentry
  rcases StepItem.follow_cases hentry with ⟨order, -, rfl⟩ |
    ⟨e, before, rfl, hkept, hadjusts, hbefore, -, rfl⟩ | hbefore
  · exact order.quantity_finite.1
  · rcases Execution.leaves_fate hadjusts (hsound e rfl) (h.remaining hbefore)
      (hn.remaining hbefore) with hfinite | ⟨hkind, hsum⟩
    · exact hfinite
    · have hreference : e.reference = some id := by
        rcases hadjusts with ⟨hfill, -⟩ | ⟨-, hreference⟩
        · rw [hkind] at hfill
          cases hfill
        · exact hreference
      exact absurd (.remaining hkind id before hreference
        (fun horder => hkept (.inr ⟨hkind, horder⟩)) hbefore hsum) hover
  · exact h.remaining hbefore

/-- If a fill leaves a finite account, the sums that it has made are finite. -/
theorem Finite.sums {e : Execution Float} (h : a.Finite) (hsound : ¬ e.Unsound)
    (ht : a.reconcile e = .ok a') (hfinite : a'.Finite) {income change : Float}
    (hmoves : e.Moves income change) : (a.ledger.cash + income).isFinite = true ∧
      (a.ledger.position e.symbol + change).isFinite = true := by
  obtain ⟨-, hm⟩ := Ledger.apply_of_moves hmoves (reconcile_ledger ht)
  obtain ⟨-, hchange⟩ := hmoves.isFinite hsound
  have hheld := h.held e.symbol
  constructor
  · have hcash := hfinite.cash
    rwa [hm] at hcash
  · rcases isNaN_eq_false_iff.mp (isNaN_add (isNaN_eq_false_iff.mpr (.inl hheld)) hchange) with
      hsum | ⟨s, hsum⟩
    · exact hsum
    · have hentered : a'.ledger.holdings.get? e.symbol =
          some (a.ledger.position e.symbol + change) := by
        rw [hm]
        exact Ledger.adjusted_infinite hheld hchange hsum
      exact hfinite.position hentered

/-- A modify that overflows leaves the order that it refers to with an infinite rest. -/
theorem remaining_infinite {e : Execution Float} (hkind : e.kind = .modify) {target : OrderId}
    {entry : Resting Float} (hreference : e.reference = some target) (hother : e.order ≠ target)
    (hresting : a.blotter.resting.get? target = some entry)
    (hfinite : entry.remaining.isFinite = true) (hquantity : e.quantity.isFinite = true)
    (hinfinite : IsInfinite (entry.remaining + e.quantity) .positive)
    (ht : a.reconcile e = .ok a') :
    a'.blotter.resting.get? target =
      some { entry with remaining := entry.remaining + e.quantity } := by
  have hkept : ¬ e.Withdraws target := by
    rintro (⟨h, -⟩ | ⟨-, h⟩)
    · rw [hkind] at h
      cases h
    · exact hother h
  have hscale : e.scale entry.remaining = larger entry.remaining (magnitude e.quantity) := by
    unfold Execution.scale
    rw [hkind]
    rfl
  have hopen : isSpent (e.leaves entry.remaining) (e.scale entry.remaining) = false := by
    rw [isSpent_eq_false_iff, Execution.leaves_of_modify hkind, hscale]
    exact ⟨hinfinite.not_le rfl, isFlat_of_finite_scale hinfinite
      (isFinite_larger hfinite (isFinite_magnitude hquantity))⟩
  rw [reconcile_follow ht target, hresting]
  unfold Execution.follow
  rw [if_neg hkept, if_pos (.inr ⟨hkind, hreference⟩)]
  show e.adjust entry = _
  unfold Execution.adjust
  rw [hopen, Execution.leaves_of_modify hkind]
  rfl

/-- An item that overflows leaves an amount that is not finite. -/
theorem Finite.not_take (h : a.Finite) (hn : a.Numeric) (hsound : i.Sound)
    (ht : a.take i = .ok a') (hover : i.Overflows a) : ¬ a'.Finite := by
  intro hfinite
  cases i with
  | placement id order => exact hover
  | execution e =>
    replace hover : e.Overflows a := hover
    replace ht : a.reconcile e = .ok a' := ht
    have hheld := h.held e.symbol
    have hsums := fun income change (hmoves : e.Moves income change) =>
      h.sums (hsound e rfl) ht hfinite hmoves
    cases hover with
    | cash hkind hsum =>
      exact ((Execution.Moves.sell hkind).cash_isFinite_iff (hsound e rfl) h.cash hn.cash).mp
        (hsums _ _ (.sell hkind)).1 ⟨hkind, hsum⟩
    | long hkind hsum =>
      exact (((Execution.Moves.buy hkind).position_isFinite_iff (hsound e rfl) hheld).mp
        (hsums _ _ (.buy hkind)).2).1 ⟨hkind, hsum⟩
    | short hkind hsum =>
      exact (((Execution.Moves.sell hkind).position_isFinite_iff (hsound e rfl) hheld).mp
        (hsums _ _ (.sell hkind)).2).2 ⟨hkind, hsum⟩
    | remaining hkind target entry hreference hother hresting hsum =>
      obtain ⟨hquantity, -, -⟩ := Execution.amounts_of_sound (hsound e rfl)
      have hremaining := h.remaining hresting
      have hinfinite : IsInfinite (entry.remaining + e.quantity) .positive := by
        rcases add_fate hremaining hquantity with ⟨hin, -⟩ | ⟨-, hinfinite⟩ | ⟨hbelow, -⟩
        · exact absurd hsum (not_le.mpr (abs_lt.mp hin).2)
        · exact hinfinite
        · have hpos := overflow_pos
          linarith
      have hleft := hfinite.remaining (remaining_infinite hkind hreference hother hresting
        hremaining hquantity hinfinite ht)
      rw [hinfinite.not_isFinite] at hleft
      cases hleft

/-- **An item leaves a finite account finite if and only if it does not overflow.** -/
theorem finite_take_iff (h : a.Finite) (hn : a.Numeric) (hsound : i.Sound)
    (ht : a.take i = .ok a') : a'.Finite ↔ ¬ i.Overflows a :=
  ⟨fun hfinite hover => h.not_take hn hsound ht hover hfinite, h.take hn hsound ht⟩

/-! ### Histories -/

/-- The account of a session with `cash` once some items have been taken. -/
def reached (cash : Float) (items : List (StepItem Float)) : Account Float :=
  (feed take (.ofCash cash) items).1

/-- Of items that are all taken, one leads on from where those before it have led. -/
theorem take_reached {cash : Float} {front back : List (StepItem Float)} {i : StepItem Float}
    {a : Account Float} (h : feed take (.ofCash cash) (front ++ i :: back) = (a, none)) :
    (reached cash front).take i = .ok (reached cash (front ++ [i])) := by
  obtain ⟨htaken, hrest⟩ := feed_split h
  unfold reached
  rw [feed_append htaken]
  cases hi : (feed take (.ofCash cash) front).1.take i with
  | error cause =>
    rw [feed_cons_error hi] at hrest
    cases hrest
  | ok a' =>
    rw [feed_cons_ok hi]
    rfl

theorem finite_ofCash {cash : Float} (h : cash.isFinite = true) : (ofCash cash).Finite :=
  ⟨h, fun hentry => (by cases hentry), fun hentry => (by cases hentry)⟩

theorem numeric_ofCash {cash : Float} (h : 0 ≤ cash) : (ofCash cash).Numeric :=
  ⟨h, fun hentry => (by cases hentry), fun hentry => (by cases hentry)⟩

theorem Numeric.feed : ∀ {items : List (StepItem Float)} {a : Account Float}, a.Numeric →
    (∀ i ∈ items, i.Sound) → (Brokerage.feed Account.take a items).1.Numeric
  | [], _, h, _ => h
  | i :: items, a, h, hsound => by
    cases hi : a.take i with
    | error cause =>
      rw [feed_cons_error hi]
      exact h
    | ok a' =>
      rw [feed_cons_ok hi]
      exact (h.take (hsound i List.mem_cons_self) hi).feed
        fun j hj => hsound j (List.mem_cons_of_mem i hj)

/-- Items of which none overflows where it is taken leave a finite account finite. -/
theorem Finite.feed : ∀ {items : List (StepItem Float)} {a : Account Float}, a.Finite →
    a.Numeric → (∀ i ∈ items, i.Sound) →
      (∀ front i back, items = front ++ i :: back →
        ¬ i.Overflows (Brokerage.feed Account.take a front).1) →
          (Brokerage.feed Account.take a items).1.Finite
  | [], _, h, _, _, _ => h
  | i :: items, a, h, hn, hsound, hover => by
    have hi' : i.Sound := hsound i List.mem_cons_self
    cases hi : a.take i with
    | error cause =>
      rw [feed_cons_error hi]
      exact h
    | ok a' =>
      rw [feed_cons_ok hi]
      refine (h.take hn hi' hi (hover [] i items rfl)).feed (hn.take hi' hi)
        (fun j hj => hsound j (List.mem_cons_of_mem i hj)) fun front j back hitems => ?_
      have hlater := hover (i :: front) j back (congrArg (i :: ·) hitems)
      rwa [feed_cons_ok hi] at hlater

end Account

/-! ### Runs -/

namespace Broker

section

variable {σ α : Type} [Amount α]

/-- The account is what the history makes of the initial cash, but for the orders that are
pending. -/
def Retraces (cash : α) (b : Broker σ α) : Prop :=
  feed Account.take (.ofCash cash) b.history = (b.account.buffering [], none)

theorem Retraces.of_same {cash : α} {b c : Broker σ α} (hb : Retraces cash b)
    (h : (c.account.buffering [], c.history) = (b.account.buffering [], b.history)) :
    Retraces cash c := by
  obtain ⟨haccount, hhistory⟩ := Prod.mk.inj h
  unfold Retraces
  rw [haccount, hhistory]
  exact hb

theorem retraces_takeItem {cash : α} {b c : Broker σ α} {i : StepItem α} (hb : Retraces cash b)
    (h : b.takeItem i = .ok c) : Retraces cash c := by
  obtain ⟨a, ha, rfl⟩ := takeItem_ok h
  have htake : (b.account.buffering []).take i = .ok (a.buffering []) := by
    rw [Account.take_buffering, ha]
    rfl
  unfold Retraces
  rw [history_book, book_account, feed_append hb, feed_cons_ok htake]
  rfl

variable [Service σ α]

theorem retraces_perform {cash : α} {b : Broker σ α} (hb : Retraces cash b) :
    ∀ call : Call α, Retraces cash (b.perform call).2
  | .insert order => by
    show Retraces cash (b.insert order).2
    rcases b.insert_eq order with h | h <;> rw [h] <;> exact hb
  | .tick => by
    refine tick_invariant (P := Retraces cash) (fun b hb => ?_) (fun _ _ _ => retraces_takeItem)
      (fun _ _ hb => hb) (fun b step report hb => ?_) b hb
    · exact hb.of_same (b.due_keeps (fun b => (b.account.buffering [], b.history))
        (fun b _ _ => Prod.ext rfl b.history_sent) (fun _ _ => rfl))
    · refine hb.of_same (Prod.ext ?_ (b.history_conclude step report))
      exact b.conclude_keeps (·.account.buffering []) (fun _ _ _ _ _ _ _ => rfl) step report

/-- **In every state of a run** the account is what the history makes of the initial cash,
and every execution of the history has passed the check. -/
theorem history_operated {setup : Setup α} {service : σ} {b : Broker σ α}
    (h : connect setup service = .ok b) {cash : α} (hcash : setup.cash = some cash)
    (ops : List (Operation σ α)) : Retraces cash (b.operated ops) ∧
      ∀ e, .execution e ∈ (b.operated ops).history → ¬ e.Unsound := by
  obtain ⟨cash', hcash', -, haccount, hlog, hfree, -, -, -, now, hjournal⟩ := connect_ok h
  obtain rfl : cash = cash' := Option.some.inj (hcash.symm.trans hcash')
  have hnone : b.history = [] := by
    unfold history
    rw [hjournal]
    rfl
  have hsound : b.Sound := by
    refine ⟨fun e he => ?_, fun e he => ?_⟩
    · rw [hlog] at he
      cases he
    · unfold executionsHeld at he
      rw [hfree] at he
      cases he
  have hretraces : Retraces cash b := by
    unfold Retraces
    rw [hnone, haccount]
    rfl
  obtain ⟨hlogged, hsound', hretraces'⟩ := operated_invariant
    (P := fun c => c.tradeLog = executionsIn c.history ∧ c.Sound ∧ Retraces cash c)
    (fun c made ⟨hlogged, hsound, hretraces⟩ => ⟨executionsIn_history [made] hlogged,
      hsound.perform made, retraces_perform hretraces made⟩)
    (fun _ _ hc => hc) ops ⟨by rw [hlog, hnone]; rfl, hsound, hretraces⟩
  refine ⟨hretraces', fun e he => hsound'.1 e ?_⟩
  rw [hlogged]
  exact List.mem_filterMap.mpr ⟨_, he, rfl⟩

end

/-- **Account numbers are finite until an exact sum overflows.** In every state that
operations lead to, the account is what its history makes of the initial cash. No position
is undefined, and neither the cash nor what is open of an order is undefined or below zero.
An item that was taken of a finite account has left it finite if and only if none of the
exact sums that it made was out of the range of doubles: the cash after a sell, the
position after a fill, what is open of the order that a modify refers to. So if no item of
the history has overflowed, the cash, every held position and what is open of every resting
order are finite. -/
theorem finite_unless_overflow {σ : Type} [Service σ Float] {setup : Setup Float} {service : σ}
    {b : Broker σ Float} (h : connect setup service = .ok b) {cash : Float}
    (hcash : setup.cash = some cash) (ops : List (Operation σ Float)) :
    let c := b.operated ops
    let reached := Account.reached cash
    (reached [] = .ofCash cash ∧ reached c.history = c.account.buffering []) ∧
    (reached []).Finite ∧ c.account.Numeric ∧
    (∀ front i back, c.history = front ++ i :: back → (reached front).Finite →
      ((reached (front ++ [i])).Finite ↔ ¬ i.Overflows (reached front))) ∧
    ((∀ front i back, c.history = front ++ i :: back → ¬ i.Overflows (reached front)) →
      c.account.Finite) := by
  intro c reached
  obtain ⟨cash', -, -, -, ⟨hcash', hfinite, hpos, -⟩, -⟩ := connect_opened h
  obtain rfl : cash = cash' := Option.some.inj (hcash.symm.trans hcash')
  obtain ⟨hretraces, hsound⟩ := history_operated h hcash ops
  have hsound' : ∀ i ∈ c.history, i.Sound := fun i hi e he => hsound e (he ▸ hi)
  have hstart := Account.finite_ofCash hfinite
  have hnumeric := Account.numeric_ofCash ((not_lt_zero_iff hfinite).mp hpos)
  have hreached : reached c.history = c.account.buffering [] := congrArg Prod.fst hretraces
  refine ⟨⟨rfl, hreached⟩, hstart, ?_, fun front i back hitems hfront => ?_, fun hover => ?_⟩
  · have hall : (reached c.history).Numeric := hnumeric.feed hsound'
    rw [hreached] at hall
    exact ⟨hall.cash, hall.position, hall.remaining⟩
  · have hbefore : (reached front).Numeric := hnumeric.feed fun j hj =>
      hsound' j (by rw [hitems]; exact List.mem_append_left _ hj)
    have htake : (reached front).take i = .ok (reached (front ++ [i])) := by
      unfold Retraces at hretraces
      rw [hitems] at hretraces
      exact Account.take_reached hretraces
    exact Account.finite_take_iff hfront hbefore (hsound' i (by rw [hitems]; simp)) htake
  · have hall : (reached c.history).Finite := hstart.feed hnumeric hsound' hover
    rw [hreached] at hall
    exact ⟨hall.cash, hall.position, hall.remaining⟩

/-- A session whose first step brings an order to rest and whose second raises it. -/
def sampleRaising : ScriptedService Float :=
  (((Scenario.blank.startingAt 100).withQuote sampleSymbol 10 11).service.pushStep
    ⟨true, [], [⟨⟨7⟩, ⟨.limitBuy, sampleSymbol, 1e308, some 1, none⟩⟩], ∅, ∅, some 101⟩).pushStep
    ⟨true, [.modified sampleSymbol 1e308 102 ⟨8⟩ ⟨7⟩], [], ∅, ∅, some 102⟩

def sampleRaiser : Broker (ScriptedService Float) Float where
  service := { sampleRaising with requests := [.dataset "sample"] }
  session := ⟨0⟩
  finished := false
  account := .ofCash 1000
  quotes := sampleRaising.quotes
  depths := ∅
  now := some 100
  tradeLog := []
  insertedLastTick := []
  values := []
  held := none
  journal := [.sessionStarted (some 100)]

/-- The session after two ticks. -/
def sampleRaised : Broker (ScriptedService Float) Float :=
  sampleRaiser.operated [.call .tick, .call .tick]

def sampleLargeOrder : Order Float :=
  ⟨⟨.limitBuy, sampleSymbol, 1e308, some 1, none⟩, by decide +kernel⟩

/-- The order is finite as it comes to rest, and infinite once it has been raised. -/
theorem sample_finite_unless_overflow :
    (Account.reached 1000 [.placement ⟨7⟩ sampleLargeOrder]).Finite ∧
    ¬ (Account.reached 1000 [.placement ⟨7⟩ sampleLargeOrder,
      .execution (.modified sampleSymbol 1e308 102 ⟨8⟩ ⟨7⟩)]).Finite := by
  have hconnect : connect ⟨some 1000, some (.dataset "sample")⟩ sampleRaising =
    .ok sampleRaiser := rfl
  obtain ⟨-, hstart, -, hstep, -⟩ :=
    finite_unless_overflow hconnect rfl [.call .tick, .call .tick]
  have hhistory : sampleRaised.history = [.placement ⟨7⟩ sampleLargeOrder,
    .execution (.modified sampleSymbol 1e308 102 ⟨8⟩ ⟨7⟩)] := by decide +kernel
  have hplaced := (hstep [] _ _ hhistory hstart).mpr fun hover => hover
  refine ⟨hplaced, mt (hstep [.placement ⟨7⟩ sampleLargeOrder] _ [] hhistory hplaced).mp
    (not_not_intro ?_)⟩
  refine .remaining rfl ⟨7⟩ ⟨sampleLargeOrder, 1e308⟩ rfl (by decide) rfl ?_
  decide +kernel

/-- Two sells for as much money as a double can hold, and two buys of as large a quantity. -/
def sampleExcess : List (Execution Float) := [
  .sold sampleSymbol 1e308 1 101 ⟨1⟩,
  .sold sampleSymbol 1e308 1 101 ⟨2⟩,
  .bought ⟨"XYZ"⟩ 1 1e308 101 ⟨3⟩,
  .bought ⟨"XYZ"⟩ 1 1e308 101 ⟨4⟩]

def sampleExceeding : ScriptedService Float :=
  ((Scenario.blank.startingAt 100).withQuote sampleSymbol 10 10.5).service.pushStep
    ⟨true, sampleExcess, [], (∅ : Quotes Float).insert sampleSymbol ⟨10, 10.5, 0, 0, 101⟩ |>.insert
      ⟨"XYZ"⟩ ⟨1, 1, 0, 0, 101⟩, ∅, some 101⟩

/-- All amounts are finite and the tick is completed; the cash and a position are not finite
after it. -/
theorem sample_account_not_finite : ∃ b : Broker (ScriptedService Float) Float,
    connect ⟨some 1000, some (.dataset "test")⟩ sampleExceeding = .ok b ∧
    (∀ e ∈ sampleExcess, e.quantity.isFinite = true ∧ e.value.isFinite = true) ∧
    b.tick.1.toOption.isSome = true ∧
    (b.operated [.call .tick]).account.ledger.cash.isFinite = false ∧
    ((b.operated [.call .tick]).account.ledger.position ⟨"XYZ"⟩).isFinite = false := by
  refine ⟨_, rfl, ?_, ?_, ?_, ?_⟩ <;> decide +kernel

end Broker

end Brokerage
