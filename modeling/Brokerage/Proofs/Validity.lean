/-
# Every order is valid

An order has a symbol, a quantity, and a price and a reference where its kind calls for
them (`Ticket.Valid`). A ticket that breaks a condition (`Ticket.Breaks`) is refused with
the first that it breaks, in the order symbol, quantity, price, reference
(`Ticket.FirstFault`), and any other ticket is taken as it is (`Order.judged_ofTicket`). An
order comes from a ticket in no other way, whether it is made by hand, read from a text,
acknowledged by the service or planned (`orders_valid`), and so whatever a broker has
pending, has sent or has resting is valid.

Key definitions: `Ticket.Valid`, `Ticket.Breaks`, `Ticket.FirstFault`, `Ticket.Judged`.
Key theorems: `Ticket.fault?_eq_none_iff`, `Ticket.fault?_eq_some_iff`,
`Order.judged_ofTicket`, `Plan.check_eq_ok_iff`, `Plan.check_eq_error_iff`,
`Plan.ofJson_eq_ok_iff`, `orders_valid`.
-/
import Brokerage.Plan
import Brokerage.Proofs.Forms
import Brokerage.Proofs.OrderFlow

namespace Brokerage

/-- The condition that a fault is about: symbol, quantity, price or reference. -/
def OrderFault.place {α : Type} : OrderFault α → ℕ
  | .emptySymbol => 0
  | .notFinite _ .quantity | .negativeCancelQuantity _ | .nonPositiveQuantity _ _ => 1
  | .notFinite _ .price | .unexpectedPrice _ | .missingPrice _ | .nonPositivePrice _ => 2
  | .missingReference _ | .unexpectedReference _ => 3

theorem OrderFault.place_lt {α : Type} (fault : OrderFault α) : fault.place < 4 := by
  unfold place
  split <;> decide

namespace Ticket

/-- What an order has to have. -/
structure Valid (t : Ticket Float) : Prop where
  symbol : t.symbol.name ≠ ""
  quantity : t.quantity.isFinite = true ∧
    if t.kind = .cancel then 0 ≤ t.quantity else 0 < t.quantity
  price : (t.price.isSome = true ↔ t.kind = .limitBuy ∨ t.kind = .limitSell) ∧
    ∀ p, t.price = some p → p.isFinite = true ∧ 0 < p
  reference : t.reference.isSome = true ↔ t.kind = .cancel ∨ t.kind = .modify

/-- The ticket breaks a condition, and the fault says which and how. -/
inductive Breaks (t : Ticket Float) : OrderFault Float → Prop
  | emptySymbol (h : t.symbol.name = "") : Breaks t .emptySymbol
  | notFiniteQuantity (h : t.quantity.isFinite = false) : Breaks t (.notFinite t.kind .quantity)
  | negativeCancelQuantity (hfinite : t.quantity.isFinite = true) (hkind : t.kind = .cancel)
    (h : t.quantity < 0) : Breaks t (.negativeCancelQuantity t.quantity)
  | nonPositiveQuantity (hfinite : t.quantity.isFinite = true) (hkind : t.kind ≠ .cancel)
    (h : t.quantity ≤ 0) : Breaks t (.nonPositiveQuantity t.kind t.quantity)
  | missingPrice (h : t.price = none) (hkind : t.kind = .limitBuy ∨ t.kind = .limitSell) :
    Breaks t (.missingPrice t.kind)
  | unexpectedPrice {p : Float} (h : t.price = some p)
    (hkind : ¬ (t.kind = .limitBuy ∨ t.kind = .limitSell)) : Breaks t (.unexpectedPrice t.kind)
  | notFinitePrice {p : Float} (h : t.price = some p)
    (hkind : t.kind = .limitBuy ∨ t.kind = .limitSell) (hp : p.isFinite = false) :
    Breaks t (.notFinite t.kind .price)
  | nonPositivePrice {p : Float} (h : t.price = some p)
    (hkind : t.kind = .limitBuy ∨ t.kind = .limitSell) (hfinite : p.isFinite = true)
    (hp : p ≤ 0) : Breaks t (.nonPositivePrice p)
  | missingReference (h : t.reference = none) (hkind : t.kind = .cancel ∨ t.kind = .modify) :
    Breaks t (.missingReference t.kind)
  | unexpectedReference {id : OrderId} (h : t.reference = some id)
    (hkind : ¬ (t.kind = .cancel ∨ t.kind = .modify)) : Breaks t (.unexpectedReference t.kind)

/-- The ticket breaks this condition and none before it. -/
def FirstFault (t : Ticket Float) (fault : OrderFault Float) : Prop :=
  t.Breaks fault ∧ ∀ other, t.Breaks other → fault.place ≤ other.place

/-- The outcome of a check: a valid ticket is taken unchanged, any other is refused with
its first fault. -/
structure Judged (t : Ticket Float) (r : Except (OrderFault Float) (Order Float)) : Prop where
  accepted : (∃ order, r = .ok order) ↔ t.Valid
  unchanged : ∀ order, r = .ok order → order.toTicket = t
  refused : ∀ fault, r = .error fault ↔ t.FirstFault fault

/-! ### The first fault -/

/-- The checks one by one. -/
def faultAt (t : Ticket Float) : ℕ → Option (OrderFault Float)
  | 0 => t.symbolFault?
  | 1 => t.quantityFault?
  | 2 => t.priceFault?
  | 3 => t.referenceFault?
  | _ => none

theorem isLimit_iff (kind : OrderKind) :
    kind.isLimit = true ↔ kind = .limitBuy ∨ kind = .limitSell := by
  cases kind <;> decide

theorem requiresReference_iff (kind : OrderKind) :
    kind.requiresReference = true ↔ kind = .cancel ∨ kind = .modify := by
  cases kind <;> decide

variable {t : Ticket Float} {fault : OrderFault Float}

theorem symbolFault?_iff : t.symbolFault? = some fault ↔ t.Breaks fault ∧ fault.place = 0 := by
  have hempty : t.symbol.name.isEmpty = true ↔ t.symbol.name = "" := String.isEmpty_iff
  unfold symbolFault?
  constructor
  · intro h
    split at h
    · rename_i hname
      cases h
      exact ⟨.emptySymbol (hempty.mp hname), rfl⟩
    · cases h
  · rintro ⟨hbreaks, hplace⟩
    cases hbreaks with
    | emptySymbol hname => rw [if_pos (hempty.mpr hname)]
    | _ => cases hplace

theorem quantityFault?_iff : t.quantityFault? = some fault ↔ t.Breaks fault ∧ fault.place = 1 := by
  have hfin : Amount.isFinite t.quantity = t.quantity.isFinite := rfl
  unfold quantityFault?
  rw [hfin]
  constructor
  · intro h
    cases hfinite : t.quantity.isFinite with
    | false =>
      rw [hfinite] at h
      cases h
      exact ⟨.notFiniteQuantity hfinite, rfl⟩
    | true =>
      rw [hfinite, if_neg (by decide)] at h
      split at h
      · rename_i hkind
        split at h
        · rename_i hq
          cases h
          exact ⟨.negativeCancelQuantity hfinite hkind hq, rfl⟩
        · cases h
      · rename_i hkind
        split at h
        · rename_i hq
          cases h
          exact ⟨.nonPositiveQuantity hfinite hkind hq, rfl⟩
        · cases h
  · rintro ⟨hbreaks, hplace⟩
    cases hbreaks with
    | notFiniteQuantity hfinite => simp [hfinite]
    | negativeCancelQuantity hfinite hkind hq =>
      simp only [hfinite, hkind, Bool.not_true, Bool.false_eq_true, if_true, if_false]
      exact if_pos hq
    | nonPositiveQuantity hfinite hkind hq =>
      simp only [hfinite, hkind, Bool.not_true, Bool.false_eq_true, if_false]
      exact if_pos hq
    | _ => cases hplace

theorem priceFault?_iff : t.priceFault? = some fault ↔ t.Breaks fault ∧ fault.place = 2 := by
  have hlimit := isLimit_iff t.kind
  have hfin : ∀ p : Float, Amount.isFinite p = p.isFinite := fun _ => rfl
  unfold priceFault?
  constructor
  · intro h
    split at h
    · rename_i hprice
      split at h
      · rename_i hkind
        cases h
        exact ⟨.missingPrice hprice (hlimit.mp hkind), rfl⟩
      · cases h
    · rename_i p hprice
      cases hkind : t.kind.isLimit with
      | false =>
        rw [hkind] at h hlimit
        cases h
        exact ⟨.unexpectedPrice hprice fun hlimited => (by cases hlimit.mpr hlimited), rfl⟩
      | true =>
        rw [hkind, if_neg (by decide), hfin] at h
        cases hfinite : p.isFinite with
        | false =>
          rw [hfinite] at h
          cases h
          exact ⟨.notFinitePrice hprice (hlimit.mp hkind) hfinite, rfl⟩
        | true =>
          rw [hfinite, if_neg (by decide)] at h
          split at h
          · rename_i hp
            cases h
            exact ⟨.nonPositivePrice hprice (hlimit.mp hkind) hfinite hp, rfl⟩
          · cases h
  · rintro ⟨hbreaks, hplace⟩
    cases hbreaks with
    | missingPrice hprice hkind => simp [hprice, hlimit.mpr hkind]
    | unexpectedPrice hprice hkind => simp [hprice, hlimit, hkind]
    | notFinitePrice hprice hkind hp => simp [hprice, hlimit.mpr hkind, hfin, hp]
    | nonPositivePrice hprice hkind hfinite hp =>
      simp only [hprice, hlimit.mpr hkind, hfin, hfinite, Bool.not_true, Bool.false_eq_true,
        if_false]
      exact if_pos hp
    | _ => cases hplace

theorem referenceFault?_iff :
    t.referenceFault? = some fault ↔ t.Breaks fault ∧ fault.place = 3 := by
  have hneeded := requiresReference_iff t.kind
  unfold referenceFault?
  constructor
  · intro h
    split at h
    · rename_i hreference
      split at h
      · rename_i hkind
        cases h
        exact ⟨.missingReference hreference (hneeded.mp hkind), rfl⟩
      · cases h
    · rename_i id hreference
      split at h
      · cases h
      · rename_i hkind
        cases h
        exact ⟨.unexpectedReference hreference fun h => hkind (hneeded.mpr h), rfl⟩
  · rintro ⟨hbreaks, hplace⟩
    cases hbreaks with
    | missingReference hreference hkind => simp [hreference, hneeded.mpr hkind]
    | unexpectedReference hreference hkind => simp [hreference, hneeded, hkind]
    | _ => cases hplace

/-- A check finds the faults of its place. -/
theorem faultAt_iff {place : ℕ} :
    t.faultAt place = some fault ↔ t.Breaks fault ∧ fault.place = place := by
  match place with
  | 0 => exact symbolFault?_iff
  | 1 => exact quantityFault?_iff
  | 2 => exact priceFault?_iff
  | 3 => exact referenceFault?_iff
  | n + 4 =>
    have hlow := fault.place_lt
    exact ⟨nofun, fun h => by omega⟩

/-- A ticket is checked at one place after the other. -/
theorem fault?_eq (t : Ticket Float) : t.fault? = (List.range 4).findSome? t.faultAt := by
  show _ = [0, 1, 2, 3].findSome? _
  unfold fault?
  simp only [List.findSome?_cons, faultAt]
  cases t.symbolFault? <;> cases t.quantityFault? <;> cases t.priceFault? <;>
    cases t.referenceFault? <;> rfl

/-- The fault of a ticket is found at its place, and nothing is found before it. -/
theorem fault?_found (h : t.fault? = some fault) :
    t.faultAt fault.place = some fault ∧ ∀ place < fault.place, t.faultAt place = none := by
  rw [fault?_eq, List.findSome?_eq_some_iff] at h
  obtain ⟨before, place, after, hrange, hfound, hnone⟩ := h
  obtain rfl := (faultAt_iff.mp hfound).2
  refine ⟨hfound, fun earlier hearlier => hnone earlier ?_⟩
  have hsorted : (List.range 4).Pairwise (· < ·) := List.pairwise_lt_range
  have hmem : earlier ∈ List.range 4 := List.mem_range.mpr (hearlier.trans fault.place_lt)
  rw [hrange] at hsorted hmem
  obtain ⟨-, hlater, -⟩ := List.pairwise_append.mp hsorted
  have hafter := (List.pairwise_cons.mp hlater).1 earlier
  rcases List.mem_append.mp hmem with hbefore | hrest
  · exact hbefore
  · rcases List.mem_cons.mp hrest with rfl | hrest
    · exact absurd hearlier (lt_irrefl _)
    · exact absurd (hafter hrest) (lt_asymm hearlier)

/-- What is found at some place leaves the ticket with a fault. -/
theorem isSome_fault? {place : ℕ} (h : t.faultAt place = some fault) :
    t.fault?.isSome = true := by
  obtain rfl := (faultAt_iff.mp h).2
  rw [fault?_eq, List.findSome?_isSome_iff]
  exact ⟨fault.place, List.mem_range.mpr fault.place_lt, by rw [h]; rfl⟩

/-- **The fault of a ticket is the first that it has.** -/
theorem fault?_eq_some_iff : t.fault? = some fault ↔ t.FirstFault fault := by
  have hfirst : ∀ {fault}, t.fault? = some fault → t.FirstFault fault := by
    intro fault h
    obtain ⟨hfound, hnone⟩ := fault?_found h
    refine ⟨(faultAt_iff.mp hfound).1, fun other hother => ?_⟩
    by_contra hlow
    have hearlier := hnone other.place (by omega)
    rw [faultAt_iff.mpr ⟨hother, rfl⟩] at hearlier
    cases hearlier
  refine ⟨hfirst, fun ⟨hbreaks, hleast⟩ => ?_⟩
  have hfault := faultAt_iff.mpr ⟨hbreaks, rfl⟩
  obtain ⟨first, h⟩ := Option.isSome_iff_exists.mp (isSome_fault? hfault)
  obtain ⟨hbreaksFirst, hleastFirst⟩ := hfirst h
  have hplace : first.place = fault.place :=
    le_antisymm (hleastFirst fault hbreaks) (hleast first hbreaksFirst)
  have hsame := faultAt_iff.mpr ⟨hbreaksFirst, hplace⟩
  rw [hfault] at hsame
  rw [h, ← hsame]

/-! ### Valid tickets -/

theorem Valid.not_breaks (h : t.Valid) : ¬ t.Breaks fault := by
  intro hbreaks
  cases hbreaks with
  | emptySymbol hname => exact h.symbol hname
  | notFiniteQuantity hfinite =>
    rw [h.quantity.1] at hfinite
    cases hfinite
  | negativeCancelQuantity hfinite hkind hq =>
    have hsign := h.quantity.2
    rw [if_pos hkind] at hsign
    exact (Double.not_lt_zero_iff hfinite).mpr hsign hq
  | nonPositiveQuantity hfinite hkind hq =>
    have hsign := h.quantity.2
    rw [if_neg hkind] at hsign
    exact (Double.not_le_zero_iff hfinite).mpr hsign hq
  | missingPrice hprice hkind =>
    have hsome := h.price.1.mpr hkind
    rw [hprice] at hsome
    cases hsome
  | unexpectedPrice hprice hkind => exact hkind (h.price.1.mp (by rw [hprice]; rfl))
  | notFinitePrice hprice hkind hp =>
    rw [(h.price.2 _ hprice).1] at hp
    cases hp
  | nonPositivePrice hprice hkind hfinite hp =>
    exact (Double.not_le_zero_iff hfinite).mpr (h.price.2 _ hprice).2 hp
  | missingReference hreference hkind =>
    have hsome := h.reference.mpr hkind
    rw [hreference] at hsome
    cases hsome
  | unexpectedReference hreference hkind =>
    exact hkind (h.reference.mp (by rw [hreference]; rfl))

/-- A ticket that breaks no condition is valid. -/
theorem valid_of_unbroken (h : ∀ fault, ¬ t.Breaks fault) : t.Valid := by
  have hfinite : t.quantity.isFinite = true := by
    by_contra hinfinite
    exact h _ (.notFiniteQuantity (Bool.eq_false_iff.mpr hinfinite))
  refine ⟨fun hname => h _ (.emptySymbol hname), ⟨hfinite, ?_⟩, ⟨⟨?_, ?_⟩, fun p hp => ?_⟩,
    ⟨?_, ?_⟩⟩
  · split
    · rename_i hkind
      exact (Double.not_lt_zero_iff hfinite).mp fun hq =>
        h _ (.negativeCancelQuantity hfinite hkind hq)
    · rename_i hkind
      exact (Double.not_le_zero_iff hfinite).mp fun hq =>
        h _ (.nonPositiveQuantity hfinite hkind hq)
  · intro hsome
    obtain ⟨p, hp⟩ := Option.isSome_iff_exists.mp hsome
    by_contra hkind
    exact h _ (.unexpectedPrice hp hkind)
  · intro hkind
    by_contra hnone
    exact h _ (.missingPrice (by simpa using hnone) hkind)
  · have hkind : t.kind = .limitBuy ∨ t.kind = .limitSell := by
      by_contra hkind
      exact h _ (.unexpectedPrice hp hkind)
    have hpFinite : p.isFinite = true := by
      by_contra hinfinite
      exact h _ (.notFinitePrice hp hkind (Bool.eq_false_iff.mpr hinfinite))
    exact ⟨hpFinite, (Double.not_le_zero_iff hpFinite).mp fun hle =>
      h _ (.nonPositivePrice hp hkind hpFinite hle)⟩
  · intro hsome
    obtain ⟨id, hid⟩ := Option.isSome_iff_exists.mp hsome
    by_contra hkind
    exact h _ (.unexpectedReference hid hkind)
  · intro hkind
    by_contra hnone
    exact h _ (.missingReference (by simpa using hnone) hkind)

/-- **A ticket has no fault if and only if it is valid.** -/
theorem fault?_eq_none_iff : t.fault? = none ↔ t.Valid := by
  constructor
  · intro h
    refine valid_of_unbroken fun fault hbreaks => ?_
    have hsome := isSome_fault? (faultAt_iff.mpr ⟨hbreaks, rfl⟩)
    rw [h] at hsome
    cases hsome
  · intro h
    by_contra hsome
    obtain ⟨fault, hfault⟩ := Option.ne_none_iff_exists'.mp hsome
    exact h.not_breaks (fault?_eq_some_iff.mp hfault).1

end Ticket

namespace Order

open Ticket (fault?_eq_none_iff fault?_eq_some_iff)

theorem valid (order : Order Float) : order.toTicket.Valid :=
  fault?_eq_none_iff.mp order.sound

theorem ofTicket_eq_ok_iff {t : Ticket Float} {order : Order Float} :
    ofTicket t = .ok order ↔ order.toTicket = t := by
  refine ⟨ofTicket_ok, ?_⟩
  rintro rfl
  exact ofTicket_toTicket order

theorem ofTicket_eq_error_iff {t : Ticket Float} {fault : OrderFault Float} :
    ofTicket t = .error fault ↔ t.FirstFault fault := by
  rw [← fault?_eq_some_iff]
  unfold ofTicket
  split
  · rename_i other hother
    rw [hother]
    exact ⟨fun h => by cases h; rfl, fun h => by cases h; rfl⟩
  · rename_i hnone
    exact ⟨nofun, fun h => by rw [hnone] at h; cases h⟩

/-- A ticket is that of an order if it is valid. -/
theorem exists_toTicket_iff {t : Ticket Float} :
    (∃ order : Order Float, order.toTicket = t) ↔ t.Valid := by
  constructor
  · rintro ⟨order, rfl⟩
    exact order.valid
  · intro h
    exact ⟨⟨t, fault?_eq_none_iff.mpr h⟩, rfl⟩

/-- **A ticket is an order if it is valid,** and is refused with its first fault if not. -/
theorem judged_ofTicket (t : Ticket Float) : t.Judged (ofTicket t) where
  accepted := by simp only [ofTicket_eq_ok_iff, exists_toTicket_iff]
  unchanged := fun _ => ofTicket_ok
  refused := fun _ => ofTicket_eq_error_iff

end Order

/-! ### Orders that are acknowledged -/

namespace Placement

theorem check_eq_ok_iff {p : Placement Float} {q : OrderId × Order Float} :
    p.check = .ok q ↔ q.1 = p.id ∧ q.2.toTicket = p.ticket := by
  rw [← Order.ofTicket_eq_ok_iff]
  unfold check
  cases Order.ofTicket p.ticket with
  | error fault => simp
  | ok order =>
    simp only [Except.ok.injEq, Prod.ext_iff]
    exact ⟨fun ⟨hid, horder⟩ => ⟨hid.symm, horder⟩, fun ⟨hid, horder⟩ => ⟨hid.symm, horder⟩⟩

theorem check_eq_error_iff {p : Placement Float} {defect : StepDefect Float} :
    p.check = .error defect ↔
      ∃ fault, defect = .badOrder p.id fault ∧ p.ticket.FirstFault fault := by
  simp only [← Order.ofTicket_eq_error_iff]
  unfold check
  cases Order.ofTicket p.ticket with
  | error fault => simp [eq_comm]
  | ok order => simp

end Placement

/-! ### Orders that are read -/

namespace Wire

theorem plain_amount (t : Json.Tree) : Plain (amount t) := by
  unfold amount
  split
  · split <;> nofun
  · nofun

theorem plain_natural (t : Json.Tree) : Plain (natural t) := by
  unfold natural
  split
  · split <;> nofun
  · nofun

theorem plain_text (t : Json.Tree) : Plain (text t) := by
  unfold text
  split <;> nofun

theorem plain_nullable {β : Type} {read : Reader β} (h : ∀ t, Plain (read t)) (t : Json.Tree) :
    Plain (nullable read t) := by
  unfold nullable
  split
  · nofun
  · exact (h _).map some

theorem plain_orderKind (source : Source) (t : Json.Tree) : Plain (orderKind source t) := by
  have hchoose : ∀ name, Plain (choose OrderKind.ofName? (OrderKind.all.map OrderKind.name) name) :=
    fun name => by
      unfold choose
      split <;> nofun
  unfold orderKind named
  split
  · exact hchoose _
  · split
    · nofun
    · refine (hchoose _).bind fun b => ?_
      split
      · split <;> nofun
      · split <;> nofun
      · nofun
  · nofun

theorem plain_readTicket (t : Json.Tree) : Plain (readTicket t) := by
  have hform : (ticketForm .fromText).Plain :=
    ⟨plain_orderKind .fromText, fun t => (plain_text t).map Symbol.mk, plain_amount,
      plain_nullable plain_amount, plain_nullable fun t => (plain_natural t).map OrderId.mk⟩
  exact (hform.read t).map ticketOfFields

theorem readOrder_eq_ok_iff {t : Json.Tree} {order : Order Float} :
    readOrder t = .ok order ↔ readTicket t = .ok order.toTicket := by
  show (readTicket t >>= checked) = .ok order ↔ _
  cases hread : readTicket t with
  | error fault => exact ⟨nofun, nofun⟩
  | ok ticket =>
    have hchecked : checked ticket = .ok order ↔ Order.ofTicket ticket = .ok order := by
      unfold checked
      cases Order.ofTicket ticket <;> simp
    show checked ticket = .ok order ↔ _
    rw [hchecked, Order.ofTicket_eq_ok_iff, Except.ok.injEq]
    exact eq_comm

theorem readOrder_eq_badOrder_iff {t : Json.Tree} {fault : OrderFault Float} :
    readOrder t = .error (.badOrder fault) ↔
      ∃ ticket, readTicket t = .ok ticket ∧ ticket.FirstFault fault := by
  have hplain := plain_readTicket t fault
  show (readTicket t >>= checked) = .error (.badOrder fault) ↔ _
  cases hread : readTicket t with
  | error other =>
    rw [hread] at hplain
    refine ⟨fun h => ?_, nofun⟩
    cases h
    exact (hplain rfl).elim
  | ok ticket =>
    have hchecked : checked ticket = .error (.badOrder fault) ↔
        Order.ofTicket ticket = .error fault := by
      unfold checked
      cases Order.ofTicket ticket <;> simp
    show checked ticket = .error (.badOrder fault) ↔ _
    rw [hchecked, Order.ofTicket_eq_error_iff]
    simp

end Wire

/-! ### Orders that are planned -/

namespace Plan

/-- The entry that a planned order comes from. -/
def entry (p : PlannedOrder Float) : ℕ × Ticket Float :=
  (p.step, p.order.toTicket)

theorem check_cons_ok {step : ℕ} {order : Order Float} (entries : List (ℕ × Ticket Float))
    (index : ℕ) : check index ((step, order.toTicket) :: entries) =
      (check (index + 1) entries).map (⟨step, order⟩ :: ·) := by
  rw [check, Order.ofTicket_toTicket]

/-- The planned orders are the entries, if all of these are orders. -/
theorem check_eq_ok_iff : ∀ {entries : List (ℕ × Ticket Float)} {index : ℕ}
    {orders : List (PlannedOrder Float)},
    check index entries = .ok orders ↔ orders.map entry = entries
  | [], index, orders => by
    rw [check, List.map_eq_nil_iff, Except.ok.injEq]
    exact eq_comm
  | (step, t) :: entries, index, orders => by
    constructor
    · intro h
      cases hr : Order.ofTicket t with
      | error fault =>
        rw [check, hr] at h
        cases h
      | ok order =>
        obtain rfl := Order.ofTicket_ok hr
        rw [check_cons_ok] at h
        cases hrest : check (index + 1) entries with
        | error bad =>
          rw [hrest] at h
          cases h
        | ok rest =>
          rw [hrest] at h
          cases h
          rw [List.map_cons, check_eq_ok_iff.mp hrest, entry]
    · intro h
      obtain ⟨p, rest, rfl, hp, hrest⟩ := List.map_eq_cons_iff.mp h
      obtain ⟨rfl, rfl⟩ := Prod.mk.inj hp
      rw [check_cons_ok, check_eq_ok_iff.mpr hrest]
      rfl

/-- The first entry that is no order is complained of, with its first fault. -/
theorem check_eq_error_iff {bad : BadEntry Float} :
    ∀ {entries : List (ℕ × Ticket Float)} {index : ℕ},
      check index entries = .error bad ↔
        ∃ before t after, entries = before ++ (bad.step, t) :: after ∧
          bad.index = index + before.length ∧ (∀ e ∈ before, e.2.Valid) ∧ t.FirstFault bad.fault
  | [], index => by
    rw [check]
    refine ⟨nofun, ?_⟩
    rintro ⟨before, t, after, h, -⟩
    cases before <;> cases h
  | (step, t) :: entries, index => by
    cases hr : Order.ofTicket t with
    | error fault =>
      have hfault := Order.ofTicket_eq_error_iff.mp hr
      rw [check, hr]
      constructor
      · intro h
        cases h
        exact ⟨[], t, entries, rfl, rfl, nofun, hfault⟩
      · rintro ⟨before, u, after, h, hindex, hvalid, hother⟩
        cases before with
        | nil =>
          obtain ⟨hhead, -⟩ := List.cons.inj h
          obtain ⟨rfl, rfl⟩ := Prod.mk.inj hhead
          rw [← Order.ofTicket_eq_error_iff, hr] at hother
          cases hother
          have hsame : bad.index = index := hindex
          rw [← hsame]
        | cons e before =>
          obtain ⟨rfl, -⟩ := List.cons.inj h
          exact ((hvalid _ List.mem_cons_self).not_breaks hfault.1).elim
    | ok order =>
      obtain rfl := Order.ofTicket_ok hr
      have ih := @check_eq_error_iff bad entries (index + 1)
      have hrest : (check (index + 1) entries).map (⟨step, order⟩ :: ·) = .error bad ↔
          check (index + 1) entries = .error bad := by
        cases check (index + 1) entries <;> simp [Except.map]
      rw [check_cons_ok, hrest, ih]
      constructor
      · rintro ⟨before, u, after, rfl, hindex, hbefore, hfault⟩
        refine ⟨(step, order.toTicket) :: before, u, after, rfl, ?_, ?_, hfault⟩
        · rw [List.length_cons]
          omega
        · exact List.forall_mem_cons.mpr ⟨order.valid, hbefore⟩
      · rintro ⟨before, u, after, h, hindex, hbefore, hfault⟩
        cases before with
        | nil =>
          obtain ⟨hhead, -⟩ := List.cons.inj h
          obtain ⟨-, rfl⟩ := Prod.mk.inj hhead
          exact (order.valid.not_breaks hfault.1).elim
        | cons e before =>
          obtain ⟨-, rfl⟩ := List.cons.inj h
          rw [List.length_cons] at hindex
          exact ⟨before, u, after, rfl, by omega, (List.forall_mem_cons.mp hbefore).2, hfault⟩

/-- A plan is what is read of a text, sorted by step, if all entries are orders. -/
theorem ofJson_eq_ok_iff {s : String} {plan : Plan Float} :
    ofJson s = .ok plan ↔ ∃ orders, Wire.parse Wire.readEntries s = .ok (orders.map entry) ∧
      plan = ⟨sortBySteps orders⟩ := by
  unfold ofJson
  cases Wire.parse Wire.readEntries s with
  | error fault => simp
  | ok entries =>
    have hcheck : ∀ orders, (.ok entries : Except Wire.Fault _) = .ok (orders.map entry) ↔
        check 0 entries = .ok orders := fun orders => by
      rw [Except.ok.injEq, check_eq_ok_iff]
      exact eq_comm
    simp only [hcheck, ofEntries]
    cases check 0 entries with
    | error bad => simp [Except.map]
    | ok orders => simp [Except.map, eq_comm]

theorem ofJson_eq_badEntry_iff {s : String} {bad : BadEntry Float} :
    ofJson s = .error (.badEntry bad) ↔ ∃ before t after,
      Wire.parse Wire.readEntries s = .ok (before ++ (bad.step, t) :: after) ∧
        bad.index = before.length ∧ (∀ e ∈ before, e.2.Valid) ∧ t.FirstFault bad.fault := by
  unfold ofJson
  cases Wire.parse Wire.readEntries s with
  | error fault => simp
  | ok entries =>
    have hcheck := @check_eq_error_iff bad entries 0
    simp only [Nat.zero_add] at hcheck
    simp only [Except.ok.injEq, ← hcheck, ofEntries]
    cases check 0 entries <;> simp [Except.map]

/-- Entries are those of planned orders if all their tickets are valid. -/
theorem exists_entries_iff : ∀ {entries : List (ℕ × Ticket Float)},
    (∃ orders : List (PlannedOrder Float), orders.map entry = entries) ↔
      ∀ e ∈ entries, e.2.Valid
  | [] => ⟨fun _ => nofun, fun _ => ⟨[], rfl⟩⟩
  | (step, t) :: entries => by
    rw [List.forall_mem_cons, ← exists_entries_iff, ← Order.exists_toTicket_iff]
    constructor
    · rintro ⟨orders, h⟩
      obtain ⟨p, rest, rfl, hp, hrest⟩ := List.map_eq_cons_iff.mp h
      exact ⟨⟨p.order, congrArg Prod.snd hp⟩, rest, hrest⟩
    · rintro ⟨⟨order, rfl⟩, rest, rfl⟩
      exact ⟨⟨step, order⟩ :: rest, rfl⟩

/-- A text is a plan if it lists valid tickets. -/
theorem exists_ofJson_iff {s : String} : (∃ plan, ofJson s = .ok plan) ↔
    ∃ entries, Wire.parse Wire.readEntries s = .ok entries ∧ ∀ e ∈ entries, e.2.Valid := by
  simp only [ofJson_eq_ok_iff, ← exists_entries_iff]
  constructor
  · rintro ⟨plan, orders, hread, -⟩
    exact ⟨_, hread, orders, rfl⟩
  · rintro ⟨entries, hread, orders, rfl⟩
    exact ⟨_, orders, hread, rfl⟩

end Plan

/-! ### All orders -/

open Wire (parse readTicket readOrder readEntries)

/-- **Every order is valid.** An order is made of a ticket, whichever it is, if the ticket is
valid, and keeps its fields; otherwise the first condition that it breaks is named, in the
order symbol, quantity, price, reference. The named kinds of orders, an order that is read,
one that the service acknowledges and those of a plan are judged in the same way, a plan by
the first entry that is refused. So whatever a broker has pending or resting after any
calls, what it has sent on the way, and what any plan holds, is valid. -/
theorem orders_valid :
    (∀ t : Ticket Float, t.Judged (Order.ofTicket t)) ∧
    (∀ symbol (quantity price : Float) target,
      (⟨.marketBuy, symbol, quantity, none, none⟩ : Ticket Float).Judged
        (Order.marketBuy symbol quantity) ∧
      (⟨.marketSell, symbol, quantity, none, none⟩ : Ticket Float).Judged
        (Order.marketSell symbol quantity) ∧
      (⟨.limitBuy, symbol, quantity, some price, none⟩ : Ticket Float).Judged
        (Order.limitBuy symbol quantity price) ∧
      (⟨.limitSell, symbol, quantity, some price, none⟩ : Ticket Float).Judged
        (Order.limitSell symbol quantity price) ∧
      (⟨.cancel, symbol, 0, none, some target⟩ : Ticket Float).Judged
        (Order.cancel symbol target) ∧
      (⟨.modify, symbol, quantity, none, some target⟩ : Ticket Float).Judged
        (Order.modify symbol target quantity)) ∧
    (∀ s, (∀ order, parse readOrder s = .ok order ↔
        ∃ t, parse readTicket s = .ok t ∧ t.Valid ∧ order.toTicket = t) ∧
      ∀ fault, parse readOrder s = .error (.badOrder fault) ↔
        ∃ t, readTicket (Json.read s).1 = .ok t ∧ t.FirstFault fault) ∧
    (∀ p : Placement Float, (∀ q, p.check = .ok q ↔
        p.ticket.Valid ∧ q.1 = p.id ∧ q.2.toTicket = p.ticket) ∧
      ((∃ q, p.check = .ok q) ↔ p.ticket.Valid) ∧
      ∀ defect, p.check = .error defect ↔
        ∃ fault, defect = .badOrder p.id fault ∧ p.ticket.FirstFault fault) ∧
    (∀ s, ((∃ plan, Plan.ofJson s = .ok plan) ↔
        ∃ entries, parse readEntries s = .ok entries ∧ ∀ e ∈ entries, e.2.Valid) ∧
      (∀ plan, Plan.ofJson s = .ok plan → ∃ entries, parse readEntries s = .ok entries ∧
        (plan.orders.map Plan.entry).Perm entries) ∧
      ∀ bad, Plan.ofJson s = .error (.badEntry bad) ↔ ∃ before t after,
        parse readEntries s = .ok (before ++ (bad.step, t) :: after) ∧
          bad.index = before.length ∧ (∀ e ∈ before, e.2.Valid) ∧ t.FirstFault bad.fault) ∧
    (∀ plan : Plan Float, ∀ p ∈ plan.orders, p.order.toTicket.Valid) ∧
    ∀ (σ : Type) [Service σ Float] (b : Broker σ Float) (calls : List (Call Float)),
      (∀ order ∈ (b.after calls).account.blotter.pending, order.toTicket.Valid) ∧
      (∀ d ∈ b.dispatches calls, ∀ batch ∈ d.batches, ∀ order ∈ batch.orders,
        order.toTicket.Valid) ∧
      ∀ e ∈ (b.after calls).account.blotter.resting.entries, e.2.order.toTicket.Valid := by
  have hticket := Order.judged_ofTicket
  refine ⟨hticket, fun symbol quantity price target => ⟨hticket _, hticket _, hticket _,
    hticket _, hticket _, hticket _⟩, fun s => ⟨fun order => ?_, fun fault => ?_⟩,
    fun p => ⟨fun q => ?_, ?_, fun defect => Placement.check_eq_error_iff⟩,
    fun s => ⟨Plan.exists_ofJson_iff, fun plan h => ?_, fun bad => Plan.ofJson_eq_badEntry_iff⟩,
    fun plan p _ => p.order.valid, fun σ _ b calls => ⟨fun order _ => order.valid,
      fun d _ batch _ order _ => order.valid, fun e _ => e.2.order.valid⟩⟩
  · simp only [Wire.parse_ok_iff, Wire.readOrder_eq_ok_iff]
    constructor
    · intro h
      exact ⟨_, h, order.valid, rfl⟩
    · rintro ⟨t, h, -, rfl⟩
      exact h
  · rw [Wire.parse_badOrder_iff, Wire.readOrder_eq_badOrder_iff]
  · rw [Placement.check_eq_ok_iff]
    constructor
    · rintro ⟨hid, horder⟩
      exact ⟨horder ▸ q.2.valid, hid, horder⟩
    · rintro ⟨-, hid, horder⟩
      exact ⟨hid, horder⟩
  · simp only [Placement.check_eq_ok_iff, ← Order.exists_toTicket_iff]
    constructor
    · rintro ⟨q, -, horder⟩
      exact ⟨q.2, horder⟩
    · rintro ⟨order, horder⟩
      exact ⟨(p.id, order), rfl, horder⟩
  · obtain ⟨orders, hread, rfl⟩ := Plan.ofJson_eq_ok_iff.mp h
    exact ⟨_, hread, (List.mergeSort_perm orders _).map Plan.entry⟩

/-- A limit order for nothing and at no price is refused for its quantity. -/
theorem sample_first_fault :
    (⟨.limitBuy, ⟨"AAPL"⟩, 0, none, none⟩ : Ticket Float).FirstFault
      (.nonPositiveQuantity .limitBuy 0) := by
  have hrefused : Order.ofTicket (⟨.limitBuy, ⟨"AAPL"⟩, 0, none, none⟩ : Ticket Float) =
      .error (.nonPositiveQuantity .limitBuy 0) := rfl
  exact ((orders_valid.1 _).refused _).mp hrefused

end Brokerage
