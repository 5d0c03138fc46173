/-
# Which replies can be applied

A reply becomes a step unless it is defective, and a defect of one item, wherever
it stands, spoils the reply as a whole (`StepReply.check_error_iff`). A reply that
can be applied can be applied with some of its items left out as well
(`StepReply.check_keeping`).

Key definitions: `Execution.Unsound`, `StepReply.Defective`, `StepReply.keeping`.
Key theorems: `StepReply.check_error_iff`, `StepReply.check_ok`,
`StepReply.check_keeping`.
-/
import Brokerage.Proofs.Item

namespace Brokerage

variable {α : Type} [Amount α]

/-- An execution with a quantity or value that is not finite, or a fill with one
below zero. -/
def Execution.Unsound (e : Execution α) : Prop :=
  Amount.isFinite e.quantity = false ∨ Amount.isFinite e.value = false ∨
    (e.kind.isFill = true ∧ (e.quantity < 0 ∨ e.value < 0))

/-- Some execution is unsound, or some acknowledged order is not an order. -/
def StepReply.Defective (r : StepReply α) : Prop :=
  (∃ e ∈ r.executed, e.Unsound) ∨ ∃ p ∈ r.inserted, ∃ fault, Order.ofTicket p.ticket = .error fault

theorem Execution.defect?_eq_none_iff (e : Execution α) : e.defect? = none ↔ ¬ e.Unsound := by
  unfold defect? Unsound
  cases Amount.isFinite e.quantity with
  | false => simp
  | true =>
    cases Amount.isFinite e.value with
    | false => simp
    | true => cases e.kind.isFill <;> simp

theorem Order.ofTicket_toTicket (order : Order α) : Order.ofTicket order.toTicket = .ok order := by
  unfold Order.ofTicket
  split
  · rename_i fault hfault
    rw [order.sound] at hfault
    cases hfault
  · rfl

theorem Order.ofTicket_ok {t : Ticket α} {order : Order α} (h : Order.ofTicket t = .ok order) :
    order.toTicket = t := by
  unfold Order.ofTicket at h
  split at h
  · cases h
  · cases h
    rfl

namespace Placement

/-- How a reply shows a placement. -/
def ofOrder (p : OrderId × Order α) : Placement α := ⟨p.1, p.2.toTicket⟩

theorem check_ofOrder (p : OrderId × Order α) : (ofOrder p).check = .ok p := by
  unfold check ofOrder
  rw [Order.ofTicket_toTicket]

theorem check_ok {p : Placement α} {q : OrderId × Order α} (h : p.check = .ok q) :
    ofOrder q = p := by
  unfold check at h
  cases ho : Order.ofTicket p.ticket with
  | error fault => rw [ho] at h; cases h
  | ok order =>
    rw [ho] at h
    cases h
    unfold ofOrder
    rw [Order.ofTicket_ok ho]

theorem check_error_iff (p : Placement α) :
    (∃ defect, p.check = .error defect) ↔ ∃ fault, Order.ofTicket p.ticket = .error fault := by
  unfold check
  cases Order.ofTicket p.ticket with
  | error fault => exact ⟨fun _ => ⟨fault, rfl⟩, fun _ => ⟨_, rfl⟩⟩
  | ok order => exact ⟨fun ⟨_, h⟩ => (by cases h), fun ⟨_, h⟩ => (by cases h)⟩

/-- Placements are checked one by one, up to the first that fails. -/
theorem mapM_check_cons (p : Placement α) (ps : List (Placement α)) :
    (p :: ps).mapM check = match p.check with
      | .error defect => .error defect
      | .ok q => match ps.mapM check with
        | .error defect => .error defect
        | .ok qs => .ok (q :: qs) := by
  rw [List.mapM_cons]
  cases p.check with
  | error defect => rfl
  | ok q => cases ps.mapM check <;> rfl

theorem mapM_check_ofOrder : ∀ ps : List (OrderId × Order α),
    (ps.map ofOrder).mapM check = .ok ps
  | [] => rfl
  | p :: ps => by
    rw [List.map_cons, mapM_check_cons, check_ofOrder, mapM_check_ofOrder ps]

theorem mapM_check_ok : ∀ {ps : List (Placement α)} {qs : List (OrderId × Order α)},
    ps.mapM check = .ok qs → qs.map ofOrder = ps
  | [], qs, h => by
    cases h
    rfl
  | p :: ps, qs, h => by
    rw [mapM_check_cons] at h
    cases hp : p.check with
    | error defect => rw [hp] at h; cases h
    | ok q =>
      cases hps : ps.mapM check with
      | error defect => rw [hp, hps] at h; cases h
      | ok rest =>
        rw [hp, hps] at h
        cases h
        rw [List.map_cons, check_ok hp, mapM_check_ok hps]

theorem mapM_check_error_iff : ∀ ps : List (Placement α),
    (∃ defect, ps.mapM check = .error defect) ↔
      ∃ p ∈ ps, ∃ fault, Order.ofTicket p.ticket = .error fault
  | [] => ⟨fun ⟨_, h⟩ => (by cases h), fun ⟨_, h, _⟩ => (by cases h)⟩
  | p :: ps => by
    have ih := mapM_check_error_iff ps
    have hp := p.check_error_iff
    rw [mapM_check_cons]
    simp only [List.mem_cons, exists_eq_or_imp, ← hp, ← ih]
    cases p.check with
    | error defect => simp
    | ok q => cases ps.mapM check <;> simp

end Placement

namespace StepReply

/-- A reply that is applied has its items in the step, as they stand. -/
theorem check_ok {r : StepReply α} {step : Step α} (h : r.check = .ok step) :
    (∀ e ∈ r.executed, ¬ e.Unsound) ∧ r.inserted = step.inserted.map Placement.ofOrder ∧
      step = ⟨r.hasNext, r.executed, step.inserted, r.quotes, r.depths, r.time⟩ := by
  unfold check at h
  cases hd : r.executed.findSome? Execution.defect? with
  | some defect => rw [hd] at h; cases h
  | none =>
    rw [hd] at h
    cases hm : r.inserted.mapM Placement.check with
    | error defect => simp only [hm] at h; cases h
    | ok placed =>
      simp only [hm] at h
      cases h
      refine ⟨fun e he => ?_, (Placement.mapM_check_ok hm).symm, rfl⟩
      exact e.defect?_eq_none_iff.mp (List.findSome?_eq_none_iff.mp hd e he)

theorem check_sound {r : StepReply α} {step : Step α} (h : r.check = .ok step) {e : Execution α}
    (he : .execution e ∈ step.items) : ¬ e.Unsound := by
  obtain ⟨hsound, -, hstep⟩ := check_ok h
  refine hsound e ?_
  have hmem : e ∈ executionsIn step.items := List.mem_filterMap.mpr ⟨_, he, rfl⟩
  rwa [Step.executionsIn_items, hstep] at hmem

/-- **A reply is refused if and only if it is defective.** -/
theorem check_error_iff (r : StepReply α) : (∃ defect, r.check = .error defect) ↔ r.Defective := by
  have hm := Placement.mapM_check_error_iff r.inserted
  unfold Defective check
  cases hd : r.executed.findSome? Execution.defect? with
  | some defect =>
    obtain ⟨e, he, hde⟩ := List.exists_of_findSome?_eq_some hd
    have hbad : e.Unsound := Classical.byContradiction fun hgood => by
      rw [e.defect?_eq_none_iff.mpr hgood] at hde
      cases hde
    exact ⟨fun _ => .inl ⟨e, he, hbad⟩, fun _ => ⟨defect, rfl⟩⟩
  | none =>
    have hgood : ¬ ∃ e ∈ r.executed, e.Unsound := fun ⟨e, he, hbad⟩ =>
      e.defect?_eq_none_iff.mp (List.findSome?_eq_none_iff.mp hd e he) hbad
    rw [← hm]
    cases r.inserted.mapM Placement.check with
    | error defect => exact ⟨fun _ => .inr ⟨defect, rfl⟩, fun _ => ⟨defect, rfl⟩⟩
    | ok placed =>
      refine ⟨fun ⟨_, h⟩ => (by cases h), fun h => ?_⟩
      rcases h with h | ⟨_, h⟩
      · exact absurd h hgood
      · cases h

/-- The reply with other items. -/
def keeping (r : StepReply α) (items : List (StepItem α)) : StepReply α :=
  { r with executed := executionsIn items, inserted := (placementsIn items).map .ofOrder }

/-- Items can be left out of a reply that can be applied. -/
theorem check_keeping {r : StepReply α} {step : Step α} (h : r.check = .ok step)
    {items : List (StepItem α)} (hitems : items.Sublist step.items) :
    (r.keeping items).check = .ok (step.keeping items) := by
  obtain ⟨hsound, -, hstep⟩ := check_ok h
  have hexecuted : step.executed = r.executed := by rw [hstep]
  have hnone : (r.keeping items).executed.findSome? Execution.defect? = none := by
    refine List.findSome?_eq_none_iff.mpr fun e he => e.defect?_eq_none_iff.mpr (hsound e ?_)
    have hsub : (executionsIn items).Sublist (executionsIn step.items) := hitems.filterMap _
    rw [Step.executionsIn_items, hexecuted] at hsub
    exact hsub.subset he
  have hplaced : (r.keeping items).inserted.mapM Placement.check = .ok (placementsIn items) :=
    Placement.mapM_check_ofOrder (placementsIn items)
  unfold check
  rw [hnone, hplaced, hstep]
  rfl

end StepReply

/-- A sell does not fail, unless cash and a value that are not below zero sum up to
less than zero. -/
theorem StepItem.sell_fits (hsum : ∀ x y : α, ¬ x < 0 → ¬ y < 0 → ¬ x + y < 0) {a : Account α}
    (hcash : ¬ a.ledger.cash < 0) {e : Execution α} (hsound : ¬ e.Unsound)
    (hkind : e.kind = .sell) : ¬ StepItem.Unfit a (.execution e) := by
  simp only [StepItem.Unfit, hkind]
  refine hsum _ _ hcash fun hvalue => hsound ?_
  exact .inr (.inr ⟨by rw [hkind]; rfl, .inr hvalue⟩)

end Brokerage
