/-
# The life of a resting order

What rests under an order number is decided by the history of the account, and in
it by the items that name the number alone: an item does to the entry of a number
what `StepItem.follow` says (`Account.take_follow`), so a run follows its history
(`Broker.follows_after`). Read backwards, the order rests that was placed last under
the number, unless something after it withdrew it or left nothing of it open
(`follow_eq_some_iff`).

Key definitions: `Execution.Withdraws`, `Execution.Adjusts`, `Execution.leaves`,
`Execution.scale`, `openAfter`, `Survives`, `Execution.adjust`, `StepItem.follow`,
`StepItem.Names`.
Key theorems: `Blotter.get?_adjusted`, `Account.take_follow`, `Broker.follows_after`,
`foldl_follow_some_iff`, `follow_eq_some_iff`, `Survives.not_spent`,
`Broker.resting_follows_history`.
-/
import Brokerage.Proofs.Exact
import Brokerage.Proofs.History

namespace Brokerage

variable {σ α : Type} [Amount α]

namespace Execution

/-- The order is over, however much of it was open: a cancel names it, as the
instruction or as what it withdrew, or it is an instruction to modify that was
carried out. -/
def Withdraws (e : Execution α) (id : OrderId) : Prop :=
  (e.kind = .cancel ∧ (e.order = id ∨ e.reference = some id)) ∨
    (e.kind = .modify ∧ e.order = id)

/-- What is open of the order changes: it is filled, or a modify refers to it. -/
def Adjusts (e : Execution α) (id : OrderId) : Prop :=
  (e.kind.isFill = true ∧ e.order = id) ∨ (e.kind = .modify ∧ e.reference = some id)

instance (e : Execution α) (id : OrderId) : Decidable (e.Withdraws id) :=
  inferInstanceAs (Decidable (_ ∨ _))

instance (e : Execution α) (id : OrderId) : Decidable (e.Adjusts id) :=
  inferInstanceAs (Decidable (_ ∨ _))

/-- What is left open of an order that is adjusted. -/
def leaves (e : Execution α) (quantity : α) : α :=
  if e.kind.isFill then quantity - e.quantity else quantity + e.quantity

/-- The magnitude beside which the rest is judged. -/
def scale (e : Execution α) (quantity : α) : α :=
  if e.kind.isFill then larger quantity e.quantity
  else larger quantity (magnitude e.quantity)

/-- What an execution makes of the quantity open of an order. -/
def change (e : Execution α) (id : OrderId) (quantity : α) : α :=
  if e.Adjusts id then e.leaves quantity else quantity

end Execution

/-- What is open of the order after some executions, of `quantity` at first. -/
def openAfter (id : OrderId) (quantity : α) (es : List (Execution α)) : α :=
  es.foldl (fun quantity e => e.change id quantity) quantity

/-- None of the executions ends the order: none withdraws it, and whenever one
adjusts it, what it leaves is neither used up nor flat. -/
structure Survives (id : OrderId) (quantity : α) (es : List (Execution α)) : Prop where
  kept : ∀ e ∈ es, ¬ e.Withdraws id
  left : ∀ front e back, es = front ++ e :: back → e.Adjusts id →
    ¬ e.leaves (openAfter id quantity front) ≤ 0 ∧
      isFlat (e.leaves (openAfter id quantity front)) (e.scale (openAfter id quantity front)) =
        false

/-- What an adjustment leaves of an entry: nothing, if what is open is used up. -/
def Execution.adjust (e : Execution α) (r : Resting α) : Option (Resting α) :=
  if isSpent (e.leaves r.remaining) (e.scale r.remaining) then none
  else some { r with remaining := e.leaves r.remaining }

/-- What an execution makes of the entry under a number. -/
def Execution.follow (id : OrderId) (entry : Option (Resting α)) (e : Execution α) :
    Option (Resting α) :=
  if e.Withdraws id then none
  else if e.Adjusts id then entry.bind e.adjust
  else entry

namespace StepItem

/-- What an item makes of the entry under a number. -/
def follow (id : OrderId) (entry : Option (Resting α)) : StepItem α → Option (Resting α)
  | .execution e => e.follow id entry
  | .placement other order => if other = id then some ⟨order, order.quantity⟩ else entry

/-- The item is about the order: it bears its number or refers to it. -/
def Names (id : OrderId) : StepItem α → Prop
  | .execution e => e.order = id ∨ e.reference = some id
  | .placement other _ => other = id

/-- What does not name an order leaves it as it is. -/
theorem follow_of_not_names {id : OrderId} (entry : Option (Resting α)) : ∀ {i : StepItem α},
    ¬ i.Names id → i.follow id entry = entry
  | .execution e, h => by
    obtain ⟨horder, hreference⟩ := not_or.mp h
    have hkept : ¬ e.Withdraws id := by
      rintro (⟨-, h | h⟩ | ⟨-, h⟩)
      · exact horder h
      · exact hreference h
      · exact horder h
    have hsame : ¬ e.Adjusts id := by
      rintro (⟨-, h⟩ | ⟨-, h⟩)
      · exact horder h
      · exact hreference h
    exact (if_neg hkept).trans (if_neg hsame)
  | .placement other order, h => if_neg h

end StepItem

/-! ### One item -/

namespace Blotter

theorem isResting_iff {b : Blotter α} {id : OrderId} :
    b.isResting id = true ↔ ∃ entry, b.resting.get? id = some entry :=
  Option.isSome_iff_exists

theorem get?_place {b c : Blotter α} {id : OrderId} {order : Order α}
    (h : b.place id order = .ok c) (other : OrderId) : c.resting.get? other =
      if id = other then some ⟨order, order.quantity⟩ else b.resting.get? other := by
  unfold place at h
  cases hid : b.isResting id with
  | true => rw [hid] at h; cases h
  | false =>
    rw [hid] at h
    cases h
    exact Table.get?_insert _ _ _ _

/-- Resting orders of which one has been adjusted. -/
def adjusted (resting : Table OrderId (Resting α)) (id : OrderId) (e : Execution α) :
    Table OrderId (Resting α) :=
  match resting.get? id with
  | none => resting
  | some r =>
    match e.adjust r with
    | none => resting.erase id
    | some r => resting.insert id r

theorem get?_adjusted (resting : Table OrderId (Resting α)) (target : OrderId) (e : Execution α)
    (id : OrderId) : (adjusted resting target e).get? id =
      if target = id then (resting.get? id).bind e.adjust else resting.get? id := by
  unfold adjusted
  by_cases hid : target = id
  · subst hid
    rw [if_pos rfl]
    cases hr : resting.get? target with
    | none => exact hr
    | some r =>
      simp only [Option.bind_some]
      cases e.adjust r with
      | none => exact (Table.get?_erase _ _ _).trans (if_pos rfl)
      | some r => exact (Table.get?_insert _ _ _ _).trans (if_pos rfl)
  · rw [if_neg hid]
    cases resting.get? target with
    | none => rfl
    | some r =>
      simp only
      cases e.adjust r with
      | none => exact (Table.get?_erase _ _ _).trans (if_neg hid)
      | some r => exact (Table.get?_insert _ _ _ _).trans (if_neg hid)

theorem fill_resting (b : Blotter α) {e : Execution α} (hfill : e.kind.isFill = true) :
    (b.fill e).2.resting = adjusted b.resting e.order e := by
  have hleaves : ∀ quantity, e.leaves quantity = quantity - e.quantity := fun _ => if_pos hfill
  have hscale : ∀ quantity, e.scale quantity = larger quantity e.quantity := fun _ => if_pos hfill
  unfold fill adjusted Execution.adjust
  simp only [hleaves, hscale]
  cases b.resting.get? e.order with
  | none => rfl
  | some r =>
    simp only
    split <;> rfl

/-- The instruction leaves first; then the order referred to is adjusted. -/
theorem modify_resting {b c : Blotter α} {e : Execution α} (hkind : e.kind = .modify)
    (h : b.modify e = .ok c) : ∃ target, e.reference = some target ∧
      c.resting = adjusted (b.resting.erase e.order) target e := by
  have hfill : ¬ e.kind.isFill = true := by rw [hkind]; exact Bool.false_ne_true
  have hleaves : ∀ quantity, e.leaves quantity = quantity + e.quantity := fun _ => if_neg hfill
  have hscale : ∀ quantity, e.scale quantity = larger quantity (magnitude e.quantity) :=
    fun _ => if_neg hfill
  rw [modify_eq] at h
  unfold adjusted Execution.adjust
  simp only [hleaves, hscale]
  cases hr : e.reference with
  | none => rw [hr] at h; cases h
  | some target =>
    refine ⟨target, rfl, ?_⟩
    simp only [hr] at h
    split at h
    · cases hentry : (b.resting.erase e.order).get? target with
      | none =>
        rw [hentry] at h
        cases h
        rfl
      | some entry =>
        simp only [hentry] at h ⊢
        split at h
        · rename_i hspent
          cases h
          rw [if_pos hspent]
        · rename_i hspent
          cases h
          rw [if_neg hspent]
    · cases h

theorem get?_fill (b : Blotter α) {e : Execution α} (hfill : e.kind.isFill = true)
    (id : OrderId) : (b.fill e).2.resting.get? id = e.follow id (b.resting.get? id) := by
  have hkept : ¬ e.Withdraws id := by
    rintro (⟨h, -⟩ | ⟨h, -⟩) <;> rw [h] at hfill <;> cases hfill
  have hadjusts : e.Adjusts id ↔ e.order = id := by
    refine ⟨fun h => ?_, fun h => .inl ⟨hfill, h⟩⟩
    rcases h with ⟨-, h⟩ | ⟨h, -⟩
    · exact h
    · rw [h] at hfill; cases hfill
  rw [b.fill_resting hfill, get?_adjusted]
  unfold Execution.follow
  simp only [if_neg hkept, hadjusts]

theorem get?_cancel {b c : Blotter α} {e : Execution α} (hkind : e.kind = .cancel)
    (h : b.cancel e = .ok c) (id : OrderId) :
    c.resting.get? id = e.follow id (b.resting.get? id) := by
  have hwithdraws : e.Withdraws id ↔ e.order = id ∨ e.reference = some id := by
    simp [Execution.Withdraws, hkind]
  have hadjusts : ¬ e.Adjusts id := by
    simp [Execution.Adjusts, hkind, ExecutionKind.isFill]
  rw [cancel_eq] at h
  cases hr : e.reference with
  | none => rw [hr] at h; cases h
  | some target =>
    simp only [hr] at h
    split at h
    · split at h
      · cases h
        unfold Execution.follow
        simp only [hwithdraws, if_neg hadjusts, hr, Option.some.injEq, Table.get?_erase]
        by_cases ht : target = id <;> by_cases ho : e.order = id <;> simp [ht, ho]
      · cases h
    · cases h

theorem get?_modify {b c : Blotter α} {e : Execution α} (hkind : e.kind = .modify)
    (h : b.modify e = .ok c) (id : OrderId) :
    c.resting.get? id = e.follow id (b.resting.get? id) := by
  have hwithdraws : e.Withdraws id ↔ e.order = id := by
    simp [Execution.Withdraws, hkind]
  have hadjusts : e.Adjusts id ↔ e.reference = some id := by
    simp [Execution.Adjusts, hkind, ExecutionKind.isFill]
  obtain ⟨target, hreference, hresting⟩ := modify_resting hkind h
  rw [hresting, get?_adjusted, Table.get?_erase]
  unfold Execution.follow
  simp only [hwithdraws, hadjusts, hreference, Option.some.injEq]
  by_cases ho : e.order = id
  · -- The instruction refers to itself or to another order: it has left either way.
    rw [if_pos ho, if_pos ho]
    exact ite_self none
  · rw [if_neg ho, if_neg ho]

end Blotter

namespace Account

theorem reconcile_follow {a a' : Account α} {e : Execution α} (h : a.reconcile e = .ok a')
    (id : OrderId) :
    a'.blotter.resting.get? id = e.follow id (a.blotter.resting.get? id) := by
  unfold reconcile at h
  cases hk : e.kind with
  | buy | sell =>
    simp only [hk] at h
    cases hl : a.ledger.apply e with
    | error cause => rw [hl] at h; cases h
    | ok ledger =>
      rw [hl] at h
      cases h
      exact a.blotter.get?_fill (by rw [hk]; rfl) id
  | cancel =>
    simp only [hk] at h
    cases hb : a.blotter.cancel e with
    | error cause => rw [hb] at h; cases h
    | ok blotter =>
      rw [hb] at h
      cases h
      exact Blotter.get?_cancel hk hb id
  | modify =>
    simp only [hk] at h
    cases hb : a.blotter.modify e with
    | error cause => rw [hb] at h; cases h
    | ok blotter =>
      rw [hb] at h
      cases h
      exact Blotter.get?_modify hk hb id

theorem get?_place {a a' : Account α} {id : OrderId} {order : Order α}
    (h : a.place id order = .ok a') (other : OrderId) : a'.blotter.resting.get? other =
      if id = other then some ⟨order, order.quantity⟩ else a.blotter.resting.get? other := by
  unfold place at h
  cases hb : a.blotter.place id order with
  | error cause => rw [hb] at h; cases h
  | ok blotter =>
    rw [hb] at h
    cases h
    exact Blotter.get?_place hb other

/-- **An item that is taken** does to every entry what the number follows. -/
theorem take_follow {a a' : Account α} (id : OrderId) : ∀ {i : StepItem α},
    a.take i = .ok a' →
      a'.blotter.resting.get? id = i.follow id (a.blotter.resting.get? id)
  | .execution _, h => reconcile_follow h id
  | .placement _ _, h => get?_place h id

end Account

/-! ### A history read backwards -/

theorem isSpent_eq_false_iff {rest scale : α} :
    isSpent rest scale = false ↔ ¬ rest ≤ 0 ∧ isFlat rest scale = false := by
  unfold isSpent
  rw [Bool.or_eq_false_iff, decide_eq_false_iff_not]

theorem survives_cons {id : OrderId} {quantity : α} {e : Execution α} {es : List (Execution α)} :
    Survives id quantity (e :: es) ↔ ¬ e.Withdraws id ∧
      (e.Adjusts id → isSpent (e.leaves quantity) (e.scale quantity) = false) ∧
        Survives id (e.change id quantity) es := by
  constructor
  · intro h
    refine ⟨h.kept e List.mem_cons_self, fun ha => ?_, ?_⟩
    · exact isSpent_eq_false_iff.mpr (h.left [] e es rfl ha)
    · refine ⟨fun e' he => h.kept e' (List.mem_cons_of_mem e he), fun front e' back hes ha => ?_⟩
      exact h.left (e :: front) e' back (congrArg (e :: ·) hes) ha
  · rintro ⟨hkept, hleft, h⟩
    refine ⟨fun e' he => ?_, fun front e' back hes ha => ?_⟩
    · rcases List.mem_cons.mp he with rfl | he
      · exact hkept
      · exact h.kept e' he
    · cases front with
      | nil =>
        obtain ⟨rfl, rfl⟩ := List.cons.inj hes
        exact isSpent_eq_false_iff.mp (hleft ha)
      | cons first front =>
        obtain ⟨rfl, htail⟩ := List.cons.inj hes
        exact h.left front e' back htail ha

/-- An order that is open at first and survives is open in the end. -/
theorem Survives.not_spent {id : OrderId} : ∀ {es : List (Execution α)} {quantity : α},
    Survives id quantity es → ¬ quantity ≤ 0 → ¬ openAfter id quantity es ≤ 0
  | [], _, _, hquantity => hquantity
  | e :: es, quantity, h, hquantity => by
    obtain ⟨-, hleft, hes⟩ := survives_cons.mp h
    have hopen : ¬ e.change id quantity ≤ 0 := by
      unfold Execution.change
      split
      · rename_i ha
        exact (isSpent_eq_false_iff.mp (hleft ha)).1
      · exact hquantity
    exact hes.not_spent hopen

theorem Order.quantity_not_le_zero (order : Order α) (h : order.kind ≠ .cancel) :
    ¬ order.quantity ≤ 0 := by
  intro hle
  obtain ⟨fault, hquantity⟩ : ∃ fault, order.quantityFault? = some fault := by
    unfold Ticket.quantityFault?
    rw [if_neg h, if_pos hle]
    split <;> exact ⟨_, rfl⟩
  have hsound := order.sound
  unfold Ticket.fault? at hsound
  rw [hquantity] at hsound
  cases hs : order.symbolFault? <;> rw [hs] at hsound <;> cases hsound

/-- Nothing comes to rest under a number without a placement. -/
theorem foldl_follow_none {id : OrderId} : ∀ {items : List (StepItem α)},
    (∀ order, .placement id order ∉ items) → items.foldl (StepItem.follow id) none = none
  | [], _ => rfl
  | i :: items, h => by
    have ih := foldl_follow_none fun order hmem => h order (List.mem_cons_of_mem i hmem)
    have hi : i.follow id none = none := by
      cases i with
      | execution e =>
        show e.follow id none = none
        unfold Execution.follow
        split
        · rfl
        · split <;> rfl
      | placement other order =>
        refine if_neg fun hother => h order ?_
        rw [hother]
        exact List.mem_cons_self
    rw [List.foldl_cons, hi, ih]

/-- Until it is placed anew, an order stays with what is open of it, or is over. -/
theorem foldl_follow_some_iff {id : OrderId} : ∀ {items : List (StepItem α)} {r r' : Resting α},
    (∀ order, .placement id order ∉ items) →
      (items.foldl (StepItem.follow id) (some r) = some r' ↔
        Survives id r.remaining (executionsIn items) ∧
          r' = ⟨r.order, openAfter id r.remaining (executionsIn items)⟩)
  | [], r, r', _ => by
    have hnil : Survives id r.remaining [] :=
      ⟨fun _ he => (by cases he), fun front _ _ hes => (by cases front <;> cases hes)⟩
    exact ⟨fun h => ⟨hnil, (Option.some.inj h).symm⟩, fun h => congrArg some h.2.symm⟩
  | .placement other order :: items, r, r', h => by
    have hother : other ≠ id := by
      rintro rfl
      exact h order List.mem_cons_self
    have hfollow : (StepItem.placement other order).follow id (some r) = some r := if_neg hother
    rw [List.foldl_cons, hfollow]
    exact foldl_follow_some_iff fun order hmem => h order (List.mem_cons_of_mem _ hmem)
  | .execution e :: items, r, r', h => by
    have hrest : ∀ order, .placement id order ∉ items :=
      fun order hmem => h order (List.mem_cons_of_mem _ hmem)
    have hsplit : executionsIn (.execution e :: items) = e :: executionsIn items := rfl
    rw [List.foldl_cons, hsplit, survives_cons]
    show items.foldl (StepItem.follow id) (e.follow id (some r)) = some r' ↔ _
    unfold Execution.follow
    by_cases hw : e.Withdraws id
    · rw [if_pos hw, foldl_follow_none hrest]
      exact ⟨fun h => (by cases h), fun h => absurd hw h.1.1⟩
    · rw [if_neg hw]
      by_cases ha : e.Adjusts id
      · have hchange : e.change id r.remaining = e.leaves r.remaining := if_pos ha
        rw [if_pos ha, Option.bind_some]
        unfold Execution.adjust
        cases hs : isSpent (e.leaves r.remaining) (e.scale r.remaining) with
        | true =>
          rw [if_pos rfl, foldl_follow_none hrest]
          refine ⟨fun h => (by cases h), fun h => ?_⟩
          cases h.1.2.1 ha
        | false =>
          rw [if_neg Bool.false_ne_true, foldl_follow_some_iff hrest, ← hchange]
          exact ⟨fun ⟨hes, hr⟩ => ⟨⟨hw, fun _ => rfl, hes⟩, hr⟩,
            fun ⟨⟨_, _, hes⟩, hr⟩ => ⟨hes, hr⟩⟩
      · have hchange : e.change id r.remaining = r.remaining := if_neg ha
        rw [if_neg ha, foldl_follow_some_iff hrest, hchange]
        have hopen : openAfter id r.remaining (e :: executionsIn items) =
            openAfter id r.remaining (executionsIn items) := by
          unfold openAfter
          rw [List.foldl_cons, hchange]
        rw [hopen]
        exact ⟨fun ⟨hes, hr⟩ => ⟨⟨hw, fun h => absurd h ha, hes⟩, hr⟩,
          fun ⟨⟨_, _, hes⟩, hr⟩ => ⟨hes, hr⟩⟩

/-- A number was never placed, or it was placed for a last time. -/
theorem last_placement (id : OrderId) : ∀ items : List (StepItem α),
    (∀ order, .placement id order ∉ items) ∨ ∃ before order since,
      items = before ++ .placement id order :: since ∧ ∀ other, .placement id other ∉ since
  | [] => .inl fun _ h => (by cases h)
  | i :: items => by
    rcases last_placement id items with hnone | ⟨before, order, since, rfl, hlast⟩
    · by_cases hi : ∃ order, i = .placement id order
      · obtain ⟨order, rfl⟩ := hi
        exact .inr ⟨[], order, items, rfl, hnone⟩
      · refine .inl fun order hmem => ?_
        rcases List.mem_cons.mp hmem with h | h
        · exact hi ⟨order, h.symm⟩
        · exact hnone order h
    · exact .inr ⟨i :: before, order, since, rfl, hlast⟩

/-- **What rests under a number** is the order that was placed last, if it has
survived since. -/
theorem follow_eq_some_iff {id : OrderId} {items : List (StepItem α)} {entry : Resting α} :
    items.foldl (StepItem.follow id) none = some entry ↔ ∃ before order since,
      items = before ++ .placement id order :: since ∧ (∀ other, .placement id other ∉ since) ∧
        Survives id order.quantity (executionsIn since) ∧
          entry = ⟨order, openAfter id order.quantity (executionsIn since)⟩ := by
  have hplaced : ∀ (before : List (StepItem α)) order since,
      (before ++ StepItem.placement id order :: since).foldl (StepItem.follow id) none =
        since.foldl (StepItem.follow id) (some ⟨order, order.quantity⟩) := by
    intro before order since
    rw [List.foldl_append, List.foldl_cons]
    congr 1
    exact if_pos rfl
  constructor
  · intro h
    rcases last_placement id items with hnone | ⟨before, order, since, rfl, hlast⟩
    · rw [foldl_follow_none hnone] at h
      cases h
    · rw [hplaced, foldl_follow_some_iff hlast] at h
      exact ⟨before, order, since, rfl, hlast, h⟩
  · rintro ⟨before, order, since, rfl, hlast, h⟩
    rw [hplaced, foldl_follow_some_iff hlast]
    exact h

/-! ### Runs -/

namespace Broker

/-- The resting orders of `b` are what its history makes of them. -/
def Follows (b : Broker σ α) : Prop :=
  ∀ id, b.account.blotter.resting.get? id = b.history.foldl (StepItem.follow id) none

/-- The entry of a number is the order that was placed last, if it has survived. -/
theorem Follows.entry_iff {b : Broker σ α} (hb : b.Follows) {id : OrderId} {entry : Resting α} :
    b.account.blotter.resting.get? id = some entry ↔ ∃ before order since,
      b.history = before ++ .placement id order :: since ∧
        (∀ other, .placement id other ∉ since) ∧
          Survives id order.quantity (executionsIn since) ∧
            entry = ⟨order, openAfter id order.quantity (executionsIn since)⟩ := by
  rw [hb id]
  exact follow_eq_some_iff

theorem Follows.of_same {b c : Broker σ α} (hb : b.Follows)
    (h : (c.account.blotter.resting, c.history) = (b.account.blotter.resting, b.history)) :
    c.Follows := by
  obtain ⟨hresting, hhistory⟩ := Prod.mk.inj h
  intro id
  rw [hresting, hhistory]
  exact hb id

theorem follows_takeItem {b c : Broker σ α} {i : StepItem α} (hb : b.Follows)
    (h : b.takeItem i = .ok c) : c.Follows := by
  obtain ⟨a, ha, rfl⟩ := takeItem_ok h
  intro id
  rw [book_account, history_book, List.foldl_append, Account.take_follow id ha, hb id]
  rfl

variable [Service σ α]

theorem follows_after (calls : List (Call α)) {b : Broker σ α} (hb : b.Follows) :
    (b.after calls).Follows := by
  refine after_invariant (fun b order hb => ?_) (fun b hb => ?_) calls b hb
  · rcases b.insert_eq order with h | h <;> rw [h] <;> exact hb
  · refine tick_invariant (fun b hb => ?_) (fun _ _ _ => follows_takeItem) (fun _ _ hb => hb)
      (fun b step report hb => ?_) b hb
    · exact hb.of_same (b.due_keeps (fun b => (b.account.blotter.resting, b.history))
        (fun b _ _ => Prod.ext rfl b.history_sent) (fun _ _ => rfl))
    · refine hb.of_same (Prod.ext ?_ (b.history_conclude step report))
      exact b.conclude_keeps (·.account.blotter.resting) (fun _ _ _ _ _ _ _ => rfl) step report

/-- Items that do not name an order leave it as it is. -/
theorem resting_unnamed {b : Broker σ α} (hb : b.Follows) {id : OrderId}
    {calls : List (Call α)} (h : ∀ i ∈ b.applied calls, ¬ i.Names id) :
    (b.after calls).account.blotter.resting.get? id = b.account.blotter.resting.get? id := by
  have hsame : ∀ (items : List (StepItem α)) (entry : Option (Resting α)),
      (∀ i ∈ items, ¬ i.Names id) → items.foldl (StepItem.follow id) entry = entry := by
    intro items
    induction items with
    | nil => intro entry _; rfl
    | cons i items ih =>
      intro entry hitems
      rw [List.foldl_cons, StepItem.follow_of_not_names entry (hitems i List.mem_cons_self)]
      exact ih entry fun j hj => hitems j (List.mem_cons_of_mem i hj)
  rw [follows_after calls hb id, history_after, List.foldl_append, ← hb id]
  exact hsame _ _ h

/-- **A resting order follows its history,** in every state that a run can reach.
The history holds the items that the run applied of its steps, and its executions
are the trade log. An order rests under a number if and only if it was placed there
last and no execution since then has ended it: none withdrew it, and none that
adjusted it left it used up or flat. It rests as it was placed, with what all these
have left open; unless it is an instruction to cancel, that is more than nothing.
Items that do not name it do not change it. -/
theorem resting_follows_history {setup : Setup α} {service : σ} {b : Broker σ α}
    (h : connect setup service = .ok b) (calls : List (Call α)) :
    let c := b.after calls
    (c.history = b.applied calls ∧ c.tradeLog = executionsIn c.history) ∧
    (∀ id, c.account.blotter.isResting id = true ↔ ∃ before order since,
      c.history = before ++ .placement id order :: since ∧
        (∀ other, .placement id other ∉ since) ∧
          Survives id order.quantity (executionsIn since)) ∧
    (∀ id entry, c.account.blotter.resting.get? id = some entry ↔ ∃ before order since,
      c.history = before ++ .placement id order :: since ∧
        (∀ other, .placement id other ∉ since) ∧
          Survives id order.quantity (executionsIn since) ∧
            entry = ⟨order, openAfter id order.quantity (executionsIn since)⟩) ∧
    (∀ id entry, c.account.blotter.resting.get? id = some entry →
      entry.order.kind ≠ .cancel → ¬ entry.remaining ≤ 0) ∧
    (∀ id more, (∀ i ∈ c.applied more, ¬ i.Names id) →
      (c.after more).account.blotter.resting.get? id =
        c.account.blotter.resting.get? id) := by
  obtain ⟨cash, -, -, haccount, hlog, -, -, -, -, now, hjournal⟩ := connect_ok h
  have hnone : b.history = [] := by
    unfold history
    rw [hjournal]
    rfl
  have hb : b.Follows := by
    intro id
    rw [hnone, haccount]
    rfl
  have hc := follows_after calls hb
  refine ⟨⟨?_, ?_⟩, fun id => ?_, fun id entry => hc.entry_iff, fun id entry hr hkind => ?_,
    fun id more hmore => resting_unnamed hc hmore⟩
  · rw [history_after, hnone, List.nil_append]
  · exact executionsIn_history calls (by rw [hlog, hnone]; rfl)
  · rw [Blotter.isResting_iff]
    constructor
    · rintro ⟨entry, hr⟩
      obtain ⟨before, order, since, hitems, hlast, hsurvives, -⟩ := hc.entry_iff.mp hr
      exact ⟨before, order, since, hitems, hlast, hsurvives⟩
    · rintro ⟨before, order, since, hitems, hlast, hsurvives⟩
      exact ⟨_, hc.entry_iff.mpr ⟨before, order, since, hitems, hlast, hsurvives, rfl⟩⟩
  · obtain ⟨before, order, since, -, -, hsurvives, rfl⟩ := hc.entry_iff.mp hr
    exact hsurvives.not_spent (order.quantity_not_le_zero hkind)

deriving instance DecidableEq for StepItem

/-- Fills 2 of the resting order. -/
def samplePartialReply : StepReply Rat where
  hasNext := true
  executed := [.bought sampleSymbol 18 2 102 ⟨7⟩]
  inserted := []
  quotes := sampleScenario.quotes
  depths := ∅
  now := some 102

/-- The sample session with a step that fills part of the order. -/
def samplePartialBroker : Broker (ScriptedService Rat) Rat :=
  { sampleBroker with
    service := { sampleService.pushStep samplePartialReply with requests := [.dataset "sample"] } }

/-- The order that three ticks bring to rest is part filled by the fourth, and rests
with what that leaves open. -/
theorem sample_resting_follows :
    connect sampleSetup (sampleService.pushStep samplePartialReply) = .ok samplePartialBroker ∧
    (samplePartialBroker.after [.tick, .tick, .tick, .tick]).account.blotter.resting.get? ⟨7⟩ =
      some ⟨sampleOrder, 3⟩ := by
  have hconnect :
      connect sampleSetup (sampleService.pushStep samplePartialReply) = .ok samplePartialBroker :=
    rfl
  refine ⟨hconnect, ?_⟩
  obtain ⟨-, -, hentry, -, -⟩ :=
    resting_follows_history hconnect [.tick, .tick, .tick, .tick]
  refine (hentry ⟨7⟩ ⟨sampleOrder, 3⟩).mpr ⟨
    [.execution (.bought sampleSymbol 400 40 101 ⟨1⟩),
      .execution (.sold sampleSymbol 100 10 101 ⟨3⟩)],
    sampleOrder, [.execution (.bought sampleSymbol 18 2 102 ⟨7⟩)], ?_, ?_, ?_, congrArg (Resting.mk sampleOrder) ?_⟩
  · decide +kernel
  · intro other h
    rcases List.mem_cons.mp h with h | h <;> cases h
  · refine survives_cons.mpr ⟨by decide, fun _ => by decide +kernel, fun _ h => (by cases h), ?_⟩
    intro front _ _ h
    cases front <;> cases h
  · decide +kernel

end Broker
end Brokerage
