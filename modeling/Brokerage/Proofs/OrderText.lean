/-
# Orders are read back from their text

The text of an order is an object of its fields, in which a price and a reference stand if
the order has them and not otherwise. It is read back as the ticket (`readTicket_toJson`)
and so, the ticket being valid, as the order. What other texts are read as the order, with
`null` for what is absent, with members in another order or with members that nobody asked
for, has no part in this: the order that they give is written in the one way
(`order_text_round_trip`).

Key definitions: `Ticket.amounts`.
Key theorems: `ticket_fills`, `readTicket_toJson`, `order_text_round_trip`.
-/
import Brokerage.Proofs.Validity

namespace Brokerage

open Json (Member Value memberTrees optionalMember)

/-- The amounts that a ticket has. -/
def Ticket.amounts (t : Ticket Float) : List Float :=
  t.quantity :: t.price.toList

namespace Wire

/-- A field that is left out when absent. -/
theorem fills_optional {β : Type} {field : Field (Option β)} {write : β → Value} {o : Option β}
    (habsent : field.absent = some none)
    (h : ∀ b, o = some b → field.read (write b).tree = .ok (some b)) :
    Fills (.one field) (memberTrees (optionalMember field.name write o)) o := by
  cases o with
  | none => exact .omitted habsent
  | some b => exact .given (h b rfl)

theorem nullable_amount {x : Float} (h : ReadsBack x) :
    nullable amount (Value.amount x).tree = .ok (some x) :=
  nullable_some h.amount nofun

theorem nullable_orderId (id : OrderId) : nullable orderId id.toJson.tree = .ok (some id) :=
  nullable_some (orderId_toJson id) nofun

theorem distinct_ticketForm (source : Source) : (ticketForm source).distinct = true := by
  cases source <;> decide

/-- **The members of a ticket tell it.** -/
theorem ticket_fills (source : Source) {t : Ticket Float} (h : ∀ x ∈ t.amounts, ReadsBack x) :
    Fills (ticketForm source) (memberTrees t.members)
      (t.kind, t.symbol, t.quantity, t.price, t.reference) := by
  obtain ⟨hquantity, hprice⟩ := List.forall_mem_cons.mp h
  have hmembers : memberTrees t.members =
      memberTrees [("order_type", .text t.kind.name), ("symbol", t.symbol.toJson),
        ("qty", .amount t.quantity)] ++
      (memberTrees (optionalMember "price" .amount t.price) ++
        memberTrees (optionalMember "order_id_ref" OrderId.toJson t.reference)) := by
    unfold Ticket.members
    rw [Json.memberTrees_append, Json.memberTrees_append, List.append_assoc]
  have hoptional : Fills (.both (.one (optional "price" (nullable amount) none))
      (.one (optional "order_id_ref" (nullable orderId) none)))
      (memberTrees (optionalMember "price" .amount t.price) ++
        memberTrees (optionalMember "order_id_ref" OrderId.toJson t.reference))
      (t.price, t.reference) := by
    refine .both (fills_optional rfl fun x hx => ?_) (fills_optional rfl fun id _ => ?_)
    · exact nullable_amount (hprice x (by rw [hx]; exact List.mem_singleton_self x))
    · exact nullable_orderId id
  rw [hmembers]
  exact .next (orderKind_name source t.kind) (.next rfl (.next hquantity.amount hoptional))

theorem readTicket_toJson {t : Ticket Float} (h : ∀ x ∈ t.amounts, ReadsBack x) :
    readTicket t.toJson.tree = .ok t := by
  have hread := (ticket_fills .fromText h).read (distinct_ticketForm .fromText)
  show ((ticketForm .fromText).read (.object (memberTrees t.members) true)).map ticketOfFields = _
  rw [hread]
  rfl

/-- The names of the members of a ticket. -/
theorem names_members (t : Ticket Float) :
    (memberTrees t.members).map (·.1) = (["order_type", "symbol", "qty"] ++
      (if t.price.isSome then ["price"] else []) ++
      (if t.reference.isSome then ["order_id_ref"] else [])).map some := by
  unfold Ticket.members
  cases t.price <;> cases t.reference <;> rfl

theorem readOrder_toJson {order : Order Float} (h : ∀ x ∈ order.amounts, ReadsBack x) :
    readOrder order.toTicket.toJson.tree = .ok order :=
  readOrder_eq_ok_iff.mpr (readTicket_toJson h)

/-- **An order is read back from its text,** provided that its amounts are. The text has a
member for each field that the order has and none for a price or reference that it lacks.
An order that was read from any text at all is valid, and read back from the text that it
has itself; and of two such orders the texts are the same if and only if the orders are,
down to the sign of a zero (which the comparison of amounts passes over). -/
theorem order_text_round_trip :
    (∀ order : Order Float, (∀ x ∈ order.amounts, ReadsBack x) →
      parse readOrder order.toTicket.toJson.render = .ok order) ∧
    (∀ order : Order Float, ∃ members : List Member,
      Json.read order.toTicket.toJson.render = (.object members true, true) ∧
      members.map (·.1) = (["order_type", "symbol", "qty"] ++
        (if order.price.isSome then ["price"] else []) ++
        (if order.reference.isSome then ["order_id_ref"] else [])).map some) ∧
    (∀ s order, parse readOrder s = .ok order → order.toTicket.Valid ∧
      ((∀ x ∈ order.amounts, ReadsBack x) →
        parse readOrder order.toTicket.toJson.render = .ok order)) ∧
    ∀ s s' order order', parse readOrder s = .ok order → parse readOrder s' = .ok order' →
      (∀ x ∈ order.amounts ++ order'.amounts, ReadsBack x) →
      (order.toTicket.toJson.render = order'.toTicket.toJson.render ↔ order = order') := by
  have hback : ∀ order : Order Float, (∀ x ∈ order.amounts, ReadsBack x) →
      parse readOrder order.toTicket.toJson.render = .ok order := fun order h => by
    rw [parse_render]
    exact readOrder_toJson h
  refine ⟨hback, fun order => ⟨_, Json.read_tree _, names_members order.toTicket⟩,
    fun s order _ => ⟨order.valid, hback order⟩, fun s s' order order' _ _ h => ?_⟩
  rw [List.forall_mem_append] at h
  constructor
  · intro htext
    have hsame := hback order h.1
    rw [htext, hback order' h.2] at hsame
    exact (Except.ok.inj hsame).symm
  · rintro rfl
    rfl

/-- An order for ten shares at 9.5 each is read back from its text. -/
theorem sample_order_text : ∃ order : Order Float,
    order.toTicket = ⟨.limitBuy, ⟨"AAPL"⟩, 10.0, some 9.5, none⟩ ∧
    parse readOrder order.toTicket.toJson.render = .ok order := by
  have hquantity : ReadsBack 10.0 := rfl
  have hprice : ReadsBack 9.5 := rfl
  refine ⟨⟨⟨.limitBuy, ⟨"AAPL"⟩, 10.0, some 9.5, none⟩, rfl⟩, rfl, ?_⟩
  refine order_text_round_trip.1 _ ?_
  exact List.forall_mem_cons.mpr ⟨hquantity, List.forall_mem_singleton.mpr hprice⟩

end Wire
end Brokerage
