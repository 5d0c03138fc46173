/-
# An execution is reconciled as a whole or not at all

A reconciliation checks and changes the ledger and the blotter in turn. Read as work in
place (`Broker.reconcileInPlace`), it changes one thing after the other, and nothing that
was changed before a fault is taken back. Still it comes to the same as the reconciliation
that makes a new account (`Broker.run_reconcileInPlace`): whatever the kind of the
execution, and whichever of its numbers coincide, every check stands before the first
change. So a broker is left as it was by an execution that it cannot reconcile, and one
that it can changes no more than what the execution is about
(`Broker.reconcile_all_or_nothing`).

Key definitions: `Broker.InPlace`, `Broker.reconcileInPlace`, `Broker.Reconciled`.
Key theorems: `Broker.run_reconcileInPlace`, `Broker.reconciled_of_ok`,
`Broker.reconcile_all_or_nothing`.
-/
import Brokerage.Proofs.Resting

namespace Brokerage

variable {σ α β γ : Type} [Amount α]

namespace Table

theorem filter_put {κ : Type} [DecidableEq κ] (key : κ) (b : β) : ∀ es : List (κ × β),
    (put key b es).filter (fun e => e.1 ≠ key) = es.filter fun e => e.1 ≠ key
  | [] => by simp [put]
  | (k, c) :: es => by
    have ih := filter_put key b es
    by_cases hk : k = key
    · rw [put, if_pos hk, List.filter_cons_of_neg (by simp [hk]),
        List.filter_cons_of_neg (by simp [hk])]
    · rw [put, if_neg hk, List.filter_cons_of_pos (by simpa using hk),
        List.filter_cons_of_pos (by simpa using hk), ih]

/-- What was entered under a key leaves with it. -/
theorem erase_insert {κ : Type} [DecidableEq κ] (t : Table κ β) (key : κ) (b : β) :
    (t.insert key b).erase key = t.erase key :=
  congrArg Table.mk (filter_put key b t.entries)

end Table

namespace Execution

variable {e : Execution α} {id : OrderId} (entry : Option (Resting α))

/-- A fill has no part in the order that it refers to, and nothing has in an order that is
neither named nor referred to. -/
theorem follow_other (horder : id ≠ e.order)
    (hreference : e.kind.isFill = false → e.reference ≠ some id) : e.follow id entry = entry := by
  have hkept : ¬ e.Withdraws id := by
    rintro (⟨hkind, h | h⟩ | ⟨-, h⟩)
    · exact horder h.symm
    · exact hreference (by rw [hkind]; rfl) h
    · exact horder h.symm
  have hsame : ¬ e.Adjusts id := by
    rintro (⟨-, h⟩ | ⟨hkind, h⟩)
    · exact horder h.symm
    · exact hreference (by rw [hkind]; rfl) h
  rw [follow, if_neg hkept, if_neg hsame]

/-- What a modify leaves of the order that it refers to. -/
theorem follow_modified (hkind : e.kind = .modify) (hreference : e.reference = some id)
    (hother : id ≠ e.order) (r : Resting α) :
    let rest := r.remaining + e.quantity
    e.follow id (some r) =
      if rest ≤ 0 ∨ isFlat rest (larger r.remaining (magnitude e.quantity)) = true then none
      else some { r with remaining := rest } := by
  have hfill : ¬ e.kind.isFill = true := by rw [hkind]; exact Bool.false_ne_true
  have hkept : ¬ e.Withdraws id := by
    rintro (⟨h, -⟩ | ⟨-, h⟩)
    · rw [hkind] at h
      cases h
    · exact hother h.symm
  rw [follow, if_neg hkept, if_pos (.inr ⟨hkind, hreference⟩)]
  simp only [Option.bind_some, adjust, leaves, scale, if_neg hfill, isSpent, Bool.or_eq_true,
    decide_eq_true_eq]

end Execution

namespace Blotter

variable (b : Blotter α) {e : Execution α}

/-- A fill adjusts the order that it names. -/
theorem fill_blotter (hfill : e.kind.isFill = true) :
    (b.fill e).2 = { b with resting := adjusted b.resting e.order e } := by
  have hpending : (b.fill e).2.pending = b.pending := by
    unfold fill
    cases b.resting.get? e.order with
    | none => rfl
    | some r =>
      simp only
      split <;> rfl
  rw [← b.fill_resting hfill, ← hpending]

/-- A modify adjusts the order that it refers to, once the instruction has left. -/
theorem modify_blotter (hkind : e.kind = .modify) :
    b.modify e = (b.target e).map fun target =>
      { b with resting := adjusted (b.resting.erase e.order) target e } := by
  have hfill : ¬ e.kind.isFill = true := by rw [hkind]; exact Bool.false_ne_true
  have hleaves : ∀ quantity, e.leaves quantity = quantity + e.quantity := fun _ => if_neg hfill
  have hscale : ∀ quantity, e.scale quantity = larger quantity (magnitude e.quantity) :=
    fun _ => if_neg hfill
  unfold modify adjusted Execution.adjust
  simp only [hleaves, hscale]
  cases b.target e with
  | error cause => rfl
  | ok target =>
    simp only [Except.map, Bind.bind, Except.bind]
    cases (b.resting.erase e.order).get? target with
    | none => rfl
    | some entry =>
      simp only
      split <;> rfl

end Blotter

namespace Broker

/-! ### Work in place -/

/-- Work on a broker in place: what was changed before a fault stays changed. -/
abbrev InPlace (σ α : Type) [Amount α] := ExceptT (Discrepancy α) (StateM (Broker σ α))

/-- Books a fill: first the cash, then the position, whose entry is taken out again if it
is flat. -/
def settleInPlace (e : Execution α) (cash change : α) : InPlace σ α Unit := do
  let l := (← get).account.ledger
  if cash < 0 then throw (.insolvent ⟨e.symbol, e.order, e.value, l.cash⟩)
  modify fun b => { b with account.ledger.cash := cash }
  let held := l.position e.symbol
  modify fun b =>
    { b with account.ledger.holdings := b.account.ledger.holdings.insert e.symbol (held + change) }
  if isFlat (held + change) (larger (magnitude held) (magnitude change)) then
    modify fun b =>
      { b with account.ledger.holdings := b.account.ledger.holdings.erase e.symbol }

def applyInPlace (e : Execution α) : InPlace σ α Unit := do
  let cash := (← get).account.ledger.cash
  match e.kind with
  | .buy => settleInPlace e (cash - e.value) e.quantity
  | .sell => settleInPlace e (cash + e.value) (-e.quantity)
  | .cancel | .modify => pure ()

def eraseInPlace (id : OrderId) : InPlace σ α Unit :=
  modify fun b => { b with account.blotter.resting := b.account.blotter.resting.erase id }

/-- Changes what is open of a resting order, whose entry is taken out again if nothing
is. -/
def adjustInPlace (id : OrderId) (e : Execution α) : InPlace σ α Unit := do
  match (← get).account.blotter.resting.get? id with
  | none => pure ()
  | some r =>
    let entry := { r with remaining := e.leaves r.remaining }
    modify fun b =>
      { b with account.blotter.resting := b.account.blotter.resting.insert id entry }
    if isSpent entry.remaining (e.scale r.remaining) then eraseInPlace id

/-- The resting order that a cancel or modify refers to. -/
def targetInPlace (e : Execution α) : InPlace σ α OrderId := do
  match e.reference with
  | none => throw (.desync (.noReference e.order e.kind))
  | some id =>
    if (← get).account.blotter.isResting id then return id
    else throw (.desync (.targetNotResting id e.kind))

def cancelInPlace (e : Execution α) : InPlace σ α Unit := do
  let target ← targetInPlace e
  if !(← get).account.blotter.isResting e.order then
    throw (.desync (.instructionUntracked e.order))
  eraseInPlace e.order
  eraseInPlace target

def modifyInPlace (e : Execution α) : InPlace σ α Unit := do
  let target ← targetInPlace e
  eraseInPlace e.order
  adjustInPlace target e

/-- Reconciles an execution change by change and enters it in the journal at last. -/
def reconcileInPlace (e : Execution α) : InPlace σ α Unit := do
  match e.kind with
  | .buy | .sell =>
    applyInPlace e
    adjustInPlace e.order e
  | .cancel => cancelInPlace e
  | .modify => modifyInPlace e
  modify fun b => b.note [.resultApplied e b.account.ledger.cash]

section

variable (b : Broker σ α)

theorem run_pure (x : β) : (pure x : InPlace σ α β).run.run b = (.ok x, b) := rfl

theorem run_modify (g : Broker σ α → Broker σ α) :
    (modify g : InPlace σ α PUnit).run.run b = (.ok ⟨⟩, g b) := rfl

theorem run_get_bind (f : Broker σ α → InPlace σ α β) :
    (get >>= f).run.run b = (f b).run.run b := rfl

theorem run_modify_bind (g : Broker σ α → Broker σ α) (f : PUnit → InPlace σ α β) :
    (modify g >>= f).run.run b = (f ⟨⟩).run.run (g b) := rfl

/-- Work goes on from where the work before it has come to, unless that met a fault. -/
theorem run_bind (x : InPlace σ α γ) (f : γ → InPlace σ α β) :
    (x >>= f).run.run b = match x.run.run b with
      | (.error cause, c) => (.error cause, c)
      | (.ok y, c) => (f y).run.run c := by
  show (match x.run.run b with | (r, c) => (ExceptT.bindCont f r).run c) = _
  rcases x.run.run b with ⟨_ | _, _⟩ <;> rfl

theorem run_settleInPlace (e : Execution α) (cash change : α) :
    (settleInPlace e cash change).run.run b =
      match b.account.ledger.settle e cash change with
      | .error cause => (.error (.insolvent cause), b)
      | .ok ledger => (.ok (), { b with account.ledger := ledger }) := by
  unfold settleInPlace Ledger.settle
  by_cases hcash : cash < 0
  · simp only [run_get_bind, if_pos hcash]
    rfl
  · unfold Ledger.adjusted
    by_cases hflat : isFlat (b.account.ledger.position e.symbol + change)
        (larger (magnitude (b.account.ledger.position e.symbol)) (magnitude change)) = true
    · simp only [run_get_bind, run_modify_bind, if_neg hcash, if_pos hflat, run_modify,
        Table.erase_insert]
    · simp only [run_get_bind, run_modify_bind, if_neg hcash, if_neg hflat, run_pure]

theorem run_applyInPlace (e : Execution α) :
    (applyInPlace e).run.run b =
      match b.account.ledger.apply e with
      | .error cause => (.error (.insolvent cause), b)
      | .ok ledger => (.ok (), { b with account.ledger := ledger }) := by
  unfold applyInPlace Ledger.apply
  rw [run_get_bind]
  cases e.kind with
  | buy | sell => exact run_settleInPlace ..
  | cancel | modify => rfl

theorem run_adjustInPlace (target : OrderId) (e : Execution α) :
    let left := Blotter.adjusted b.account.blotter.resting target e
    (adjustInPlace target e).run.run b =
      (.ok (), { b with account.blotter.resting := left }) := by
  intro left
  unfold left adjustInPlace Blotter.adjusted Execution.adjust eraseInPlace
  rw [run_get_bind]
  cases hr : b.account.blotter.resting.get? target with
  | none => rfl
  | some r =>
    by_cases hspent : isSpent (e.leaves r.remaining) (e.scale r.remaining) = true
    · simp only [run_modify_bind, run_modify, if_pos hspent, Table.erase_insert]
    · simp only [run_modify_bind, run_pure, if_neg hspent]

theorem run_targetInPlace (e : Execution α) :
    (targetInPlace e).run.run b = ((b.account.blotter.target e).mapError .desync, b) := by
  unfold targetInPlace Blotter.target
  cases e.reference with
  | none => rfl
  | some id =>
    simp only [run_get_bind]
    by_cases h : b.account.blotter.isResting id = true
    · simp only [if_pos h]
      rfl
    · simp only [if_neg h]
      rfl

theorem run_cancelInPlace (e : Execution α) :
    (cancelInPlace e).run.run b =
      match b.account.blotter.cancel e with
      | .error cause => (.error (.desync cause), b)
      | .ok blotter => (.ok (), { b with account.blotter := blotter }) := by
  unfold cancelInPlace Blotter.cancel
  rw [run_bind, run_targetInPlace]
  cases b.account.blotter.target e with
  | error cause => rfl
  | ok target =>
    show ((get >>= _ : InPlace σ α Unit).run.run b) = _
    rw [run_get_bind]
    cases b.account.blotter.isResting e.order <;> rfl

theorem run_modifyInPlace (e : Execution α) (hkind : e.kind = .modify) :
    (modifyInPlace e).run.run b =
      match b.account.blotter.modify e with
      | .error cause => (.error (.desync cause), b)
      | .ok blotter => (.ok (), { b with account.blotter := blotter }) := by
  unfold modifyInPlace
  rw [run_bind, run_targetInPlace, b.account.blotter.modify_blotter hkind]
  cases b.account.blotter.target e with
  | error cause => rfl
  | ok target => exact run_adjustInPlace _ target e

/-- **Work in place comes to the same** as making a new account: every check stands before
the first change. -/
theorem run_reconcileInPlace (e : Execution α) :
    (reconcileInPlace e).run.run b =
      match b.account.reconcile e with
      | .error cause => (.error cause, b)
      | .ok account =>
        (.ok (), note { b with account := account } [.resultApplied e account.ledger.cash]) := by
  unfold reconcileInPlace Account.reconcile
  cases hkind : e.kind with
  | buy | sell =>
    have hfill : e.kind.isFill = true := by rw [hkind]; rfl
    simp only [run_bind, run_applyInPlace]
    cases b.account.ledger.apply e with
    | error cause => rfl
    | ok ledger =>
      simp only [run_adjustInPlace, b.account.blotter.fill_blotter hfill]
      rfl
  | cancel =>
    simp only [run_bind, run_cancelInPlace]
    cases b.account.blotter.cancel e <;> rfl
  | modify =>
    simp only [run_bind, run_modifyInPlace b e hkind]
    cases b.account.blotter.modify e <;> rfl

end

/-! ### What a reconciliation changes -/

/-- `c` differs from `b` in what the execution is about, and in nothing else. -/
structure Reconciled (e : Execution α) (b c : Broker σ α) : Prop where
  /-- Nothing but the account has changed, and one event is entered. -/
  frame : c = { b with
    account := c.account
    journal := b.journal ++ [.resultApplied e c.account.ledger.cash] }
  pending : c.account.blotter.pending = b.account.blotter.pending
  /-- Only a fill is booked. -/
  ledger : e.kind.isFill = false → c.account.ledger = b.account.ledger
  booked : e.kind.isFill = true → b.account.ledger.apply e = .ok c.account.ledger
  /-- A fill changes no position but the one in its symbol. -/
  holdings : ∀ symbol, symbol ≠ e.symbol →
    c.account.ledger.holdings.get? symbol = b.account.ledger.holdings.get? symbol
  /-- Only the order named and, by a cancel or modify, the one referred to change. -/
  resting : ∀ id, id ≠ e.order → (e.kind.isFill = false → e.reference ≠ some id) →
    c.account.blotter.resting.get? id = b.account.blotter.resting.get? id
  /-- A cancel takes both orders out, and both were resting. -/
  cancelled : e.kind = .cancel → ∃ target, e.reference = some target ∧
    b.account.blotter.isResting e.order = true ∧ b.account.blotter.isResting target = true ∧
    c.account.blotter.isResting e.order = false ∧ c.account.blotter.isResting target = false
  /-- A modify takes itself out, and changes what is open of the other order, which leaves
  if that is not positive or flat. -/
  modified : e.kind = .modify → ∃ target entry, e.reference = some target ∧
    b.account.blotter.resting.get? target = some entry ∧
    c.account.blotter.isResting e.order = false ∧
    (target ≠ e.order →
      let rest := entry.remaining + e.quantity
      c.account.blotter.resting.get? target =
        if rest ≤ 0 ∨ isFlat rest (larger entry.remaining (magnitude e.quantity)) = true then none
        else some { entry with remaining := rest })

variable {b : Broker σ α} {e : Execution α}

/-- A fill is refused for want of cash, a cancel or modify because the orders that it is
about are not there. -/
theorem reconcile_error {cause : Discrepancy α} (h : b.account.reconcile e = .error cause) :
    (e.kind.isFill = true ∧ ∃ shortfall, cause = .insolvent shortfall) ∨
      (e.kind.isFill = false ∧ ∃ desync, cause = .desync desync) := by
  unfold Account.reconcile at h
  cases hkind : e.kind with
  | buy | sell =>
    simp only [hkind] at h
    cases hl : b.account.ledger.apply e with
    | error shortfall => rw [hl] at h; cases h; exact .inl ⟨rfl, shortfall, rfl⟩
    | ok ledger => rw [hl] at h; cases h
  | cancel =>
    simp only [hkind] at h
    cases hb : b.account.blotter.cancel e with
    | error desync => rw [hb] at h; cases h; exact .inr ⟨rfl, desync, rfl⟩
    | ok blotter => rw [hb] at h; cases h
  | modify =>
    simp only [hkind] at h
    cases hb : b.account.blotter.modify e with
    | error desync => rw [hb] at h; cases h; exact .inr ⟨rfl, desync, rfl⟩
    | ok blotter => rw [hb] at h; cases h

/-- What an account reconciles refers to orders that rest. -/
theorem target_of_ok {a : Account α} (h : b.account.reconcile e = .ok a)
    (hfill : e.kind.isFill = false) : ∃ target, e.reference = some target ∧
      b.account.blotter.isResting target = true ∧
      (e.kind = .cancel → b.account.blotter.isResting e.order = true) := by
  have hfits : ¬ (StepItem.execution e).Unfit b.account := fun hunfit => by
    obtain ⟨cause, hcause⟩ := (b.account.take_error_iff (.execution e)).mpr hunfit
    rw [show b.account.take (.execution e) = .ok a from h] at hcause
    cases hcause
  unfold StepItem.Unfit at hfits
  cases hkind : e.kind with
  | buy | sell => rw [hkind] at hfill; cases hfill
  | cancel =>
    simp only [hkind, not_or, Classical.not_not] at hfits
    obtain ⟨⟨target, hreference, htarget⟩, horder⟩ := hfits
    exact ⟨target, hreference, htarget, fun _ => by simpa using horder⟩
  | modify =>
    simp only [hkind, Classical.not_not] at hfits
    obtain ⟨target, hreference, htarget⟩ := hfits
    exact ⟨target, hreference, htarget, nofun⟩

/-- **A reconciliation that goes through** changes no more than what it is about. -/
theorem reconciled_of_ok {a : Account α} (h : b.account.reconcile e = .ok a) :
    Reconciled e b (note { b with account := a } [.resultApplied e a.ledger.cash]) := by
  have hledger := Account.reconcile_ledger h
  have hfollow := Account.reconcile_follow h
  have hgone : ∀ id, e.Withdraws id → a.blotter.isResting id = false := fun id hid => by
    unfold Blotter.isResting Table.contains
    rw [hfollow, Execution.follow, if_pos hid]
    rfl
  refine ⟨rfl, Account.take_pending (i := .execution e) h, fun hfill => ?_, fun _ => hledger,
    fun symbol hsymbol => ?_, fun id hid hreference => ?_, fun hkind => ?_, fun hkind => ?_⟩
  · rw [Ledger.apply_of_not_fill _ hfill] at hledger
    exact (Except.ok.inj hledger).symm
  · rcases Ledger.apply_cases hledger with ⟨-, cash, change, -, -, hl⟩ | ⟨-, -, hl⟩
    · show a.ledger.holdings.get? symbol = _
      rw [hl]
      exact Ledger.get?_adjusted_of_ne b.account.ledger change hsymbol
    · show a.ledger.holdings.get? symbol = _
      rw [hl]
  · exact (hfollow id).trans (Execution.follow_other _ hid hreference)
  · obtain ⟨target, hreference, htarget, horder⟩ := target_of_ok h (by rw [hkind]; rfl)
    exact ⟨target, hreference, horder hkind, htarget, hgone _ (.inl ⟨hkind, .inl rfl⟩),
      hgone _ (.inl ⟨hkind, .inr hreference⟩)⟩
  · obtain ⟨target, hreference, htarget, -⟩ := target_of_ok h (by rw [hkind]; rfl)
    obtain ⟨entry, hentry⟩ := Blotter.isResting_iff.mp htarget
    refine ⟨target, entry, hreference, hentry, hgone _ (.inr ⟨hkind, rfl⟩), fun hother => ?_⟩
    have htold := hfollow target
    rw [hentry] at htold
    exact htold.trans (Execution.follow_modified hkind hreference hother entry)

variable (b e)

/-- **All or nothing.** An execution that cannot be reconciled leaves the broker as it was:
ledger, pending and resting orders are untouched, also by work in place, no event is
entered, and a step that comes to it fails with the cause and holds what comes after it. The
cause is the cash for a fill, and for a cancel or modify an order that is not there. Any
other execution is reconciled, and changes no more than what it is about. -/
theorem reconcile_all_or_nothing :
    (∃ cause, (reconcileInPlace e).run.run b = (.error cause, b) ∧
      b.takeExecution e = .error cause ∧
      (∀ step report later, step.executed = e :: later → b.applyStep step report =
        (.error (.ofDiscrepancy cause),
          { b with held := some { step with executed := later } })) ∧
      ((e.kind.isFill = true ∧ ∃ shortfall, cause = .insolvent shortfall) ∨
        (e.kind.isFill = false ∧ ∃ desync, cause = .desync desync))) ∨
    (∃ c, (reconcileInPlace e).run.run b = (.ok (), c) ∧
      b.takeExecution e = .ok { c with tradeLog := b.tradeLog ++ [e] } ∧ Reconciled e b c) := by
  have hwork := b.run_reconcileInPlace e
  cases h : b.account.reconcile e with
  | error cause =>
    rw [h] at hwork
    have htake : b.takeExecution e = .error cause := by
      unfold takeExecution
      rw [h]
    refine .inl ⟨cause, hwork, htake, fun step report later hstep => ?_, reconcile_error h⟩
    unfold applyStep
    rw [hstep, feed_cons_error htake]
  | ok a =>
    rw [h] at hwork
    refine .inr ⟨_, hwork, ?_, reconciled_of_ok h⟩
    unfold takeExecution
    rw [h]
    rfl

end Broker
end Brokerage
