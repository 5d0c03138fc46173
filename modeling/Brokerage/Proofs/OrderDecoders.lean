/-
# Three ways to read an order

An order is read from the text directly, or beside a number, or beside the step of a plan;
in the last two cases it is kept as a value first, read from there and judged apart. The
members tell the order in the same way each time (`told_kept`): what tells the two sources
apart is how the kind may be written as an object, and what may not be kept are nested,
broken and outsized values. So if all members are single values, then the three ways agree:
none of them gives an order, or all give the same one (`order_decoders_agree`).

Key definitions: `Json.Tree.Scalar`.
Key theorems: `readBeside_one`, `ofMembers_scalars`, `told_kept`, `order_decoders_agree`.
-/
import Brokerage.Proofs.Members
import Brokerage.Proofs.PlanOrder
import Brokerage.Proofs.Validity

namespace Brokerage

open Json (Member Value memberTrees)

/-- A text without half of a surrogate pair, a number in the range of the amounts, a truth
value or nothing. -/
def Json.Tree.Scalar : Json.Tree → Prop
  | .text s => s.isSome = true
  | .number n => n.quick?.isSome = true
  | .bool _ | .null => True
  | _ => False

instance : DecidablePred Json.Tree.Scalar
  | .text s => inferInstanceAs (Decidable (s.isSome = true))
  | .number n => inferInstanceAs (Decidable (n.quick?.isSome = true))
  | .bool _ | .null => .isTrue trivial
  | .broken | .array _ _ | .object _ _ => .isFalse id

namespace Json.Tree.Scalar

variable {t : Json.Tree}

theorem sound (h : t.Scalar) : t.sound = true := by
  cases t with
  | null | bool | number | text => rfl
  | _ => exact h.elim

theorem strict (h : t.Scalar) (levels : ℕ) : t.strict levels = true := by
  cases t with
  | null | bool => cases levels <;> rfl
  | number n | text s => cases levels <;> exact h
  | _ => exact h.elim

end Json.Tree.Scalar

namespace Wire

/-! ### Single values beside a field -/

/-- What two decodings have in common if they give the same values. -/
theorem toOption_congr {φ ψ β : Type} {x : Except φ β} {y : Except ψ β}
    (h : ∀ b, x = .ok b ↔ y = .ok b) : x.toOption = y.toOption := by
  cases hx : x with
  | ok b => rw [(h b).mp hx]; rfl
  | error fault =>
    cases hy : y with
    | ok b =>
      rw [(h b).mpr hy] at hx
      cases hx
    | error other => rfl

theorem toOption_parse {β : Type} {read : Reader β} {s : String} {t : Json.Tree}
    (h : Json.read s = (t, true)) : (parse read s).toOption = (read t).toOption := by
  refine toOption_congr fun b => ?_
  rw [parse_ok_iff, h]
  exact and_iff_left rfl

section

variable {β γ : Type}

/-- A record of single values is read if all names can be read and the members tell it. -/
theorem ofMembers_scalars {f : Form β} (hkeys : f.keys.Nodup) {ms : List Member}
    (hscalar : ∀ m ∈ ms, m.2.Scalar) {b : β} :
    f.ofMembers ms true = .ok b ↔ (∀ m ∈ ms, m.1.isSome = true) ∧ f.Told ms b := by
  rw [Form.ofMembers_iff hkeys]
  constructor
  · rintro ⟨-, hreadable, htold⟩
    exact ⟨fun m hm => (hreadable m hm).1, htold⟩
  · rintro ⟨hnames, htold⟩
    exact ⟨rfl, fun m hm => ⟨hnames m hm, fun _ => (hscalar m hm).sound⟩, htold⟩

/-- **Beside one field** a record of single values is read in the same way, wherever the
member of that field stands. -/
theorem readBeside_one (field : Field β) (guest : Form γ)
    (hkeys : ((Form.one field).keys ++ guest.keys).Nodup) (levels : ℕ) {ms ns : List Member}
    {t : Json.Tree} (hns : ns.Perm ((some field.name, t) :: ms))
    (hfree : ∀ m ∈ ms, field.takes m = false) (hscalar : ∀ m ∈ ms, m.2.Scalar) {a : β}
    (ha : field.read t = .ok a) :
    (Form.readBeside (.one field) guest levels (.object ns true)).toOption =
      (guest.ofMembers ms true).toOption.map (Prod.mk a) := by
  obtain ⟨-, hguest, -⟩ := List.nodup_append.mp hkeys
  have hown : field.takes (some field.name, t) = true := Form.answersTo_name field
  have htaken : ((some field.name, t) :: ms).filter field.takes = [(some field.name, t)] := by
    rw [List.filter_cons_of_pos hown, List.filter_eq_nil_iff.mpr fun m hm => by simp [hfree m hm]]
  have hpassed : guest.takes (some field.name, t) = false := Form.takes_apart hkeys hown
  have hleft : ((some field.name, t) :: ms).filter guest.takes = ms.filter guest.takes :=
    List.filter_cons_of_neg (by simp [hpassed])
  have htold : ∀ b, (Form.one field).Told ns b ↔ b = a := fun b => by
    have hfirst : (Form.one field).Told ((some field.name, t) :: ms) b ↔ b = a := by
      unfold Form.Told
      rw [htaken]
      simp only [ha, Except.ok.injEq, eq_comm]
    exact ⟨fun h => hfirst.mp (h.perm hns), fun h => (hfirst.mpr h).perm hns.symm⟩
  have hrest : ∀ c, guest.Told ns c ↔ guest.Told ms c := fun c => by
    rw [← Form.told_congr hleft]
    exact ⟨fun h => h.perm hns, fun h => h.perm hns.symm⟩
  have hread : ∀ r : β × γ, Form.readBeside (.one field) guest levels (.object ns true) = .ok r ↔
      (guest.ofMembers ms true).map (Prod.mk a) = .ok r := fun r => by
    obtain ⟨b, c⟩ := r
    rw [Form.readBeside_iff hkeys, htold, hrest]
    constructor
    · rintro ⟨-, hreadable, rfl, hc⟩
      have hnames : ∀ m ∈ ms, m.1.isSome = true := fun m hm =>
        (hreadable m (hns.mem_iff.mpr (List.mem_cons_of_mem _ hm))).1
      rw [(ofMembers_scalars hguest hscalar).mpr ⟨hnames, hc⟩]
      rfl
    · intro h
      obtain ⟨c', hc, hpair⟩ := map_ok_iff.mp h
      cases hpair
      obtain ⟨hnames, hc⟩ := (ofMembers_scalars hguest hscalar).mp hc
      refine ⟨rfl, fun m hm => ?_, rfl, hc⟩
      rcases List.mem_cons.mp (hns.mem_iff.mp hm) with rfl | hm
      · refine ⟨rfl, fun hleft => ?_⟩
        have htaken : true = false := hown.symm.trans hleft
        cases htaken
      · exact ⟨hnames m hm, fun _ => (hscalar m hm).strict levels⟩
  rw [toOption_congr hread]
  cases guest.ofMembers ms true <;> rfl

end

/-! ### Kinds that were kept -/

theorem orderKind_kept {t : Json.Tree} (h : t.Scalar) :
    orderKind .kept t = orderKind .fromText t := by
  cases t with
  | text s => cases s <;> rfl
  | null | bool | number => rfl
  | _ => exact h.elim

/-- **The source of an order** makes no difference to what single values tell. -/
theorem told_kept {ms : List Member} (hscalar : ∀ m ∈ ms, m.2.Scalar)
    (fields : OrderKind × Symbol × Float × Option Float × Option OrderId) :
    (ticketForm .kept).Told ms fields ↔ (ticketForm .fromText).Told ms fields := by
  have hkind : ∀ kind, (Form.one (required "order_type" (orderKind .kept))).Told ms kind ↔
      (Form.one (required "order_type" (orderKind .fromText))).Told ms kind := by
    intro kind
    have hread : ∀ m ∈ ms.filter (required "order_type" (orderKind .fromText)).takes,
        orderKind .kept m.2 = orderKind .fromText m.2 := fun m hm =>
      orderKind_kept (hscalar m (List.mem_filter.mp hm).1)
    have hsame : (required "order_type" (orderKind .kept)).takes =
        (required "order_type" (orderKind .fromText)).takes := rfl
    unfold Form.Told
    rw [hsame]
    revert hread
    cases ms.filter (required "order_type" (orderKind .fromText)).takes with
    | nil => exact fun _ => Iff.rfl
    | cons m rest =>
      intro hread
      have hm : orderKind .kept m.2 = orderKind .fromText m.2 := hread m List.mem_cons_self
      cases rest with
      | nil => exact Eq.to_iff (congrArg (· = Except.ok kind) hm)
      | cons n rest => exact Iff.rfl
  exact and_congr (hkind fields.1) Iff.rfl

theorem keys_ticketForm (source : Source) : (ticketForm source).keys.Nodup := by
  cases source <;> decide

theorem ofMembers_kept {ms : List Member} (hscalar : ∀ m ∈ ms, m.2.Scalar) :
    ((ticketForm .kept).ofMembers ms true).toOption =
      ((ticketForm .fromText).ofMembers ms true).toOption :=
  toOption_congr fun fields => by
    rw [ofMembers_scalars (keys_ticketForm .kept) hscalar, told_kept hscalar,
      ofMembers_scalars (keys_ticketForm .fromText) hscalar]

/-! ### Agreement -/

/-- The order of the fields that were read. -/
def orderOfFields (fields : OrderKind × Symbol × Float × Option Float × Option OrderId) :
    Option (Order Float) :=
  (Order.ofTicket (ticketOfFields fields)).toOption

theorem toOption_readOrder (ms : List Member) :
    (readOrder (.object ms true)).toOption =
      ((ticketForm .fromText).ofMembers ms true).toOption.bind orderOfFields := by
  show (Except.toOption (((ticketForm .fromText).ofMembers ms true).map ticketOfFields >>=
    checked)) = _
  cases (ticketForm .fromText).ofMembers ms true with
  | error fault => rfl
  | ok fields =>
    show (checked (ticketOfFields fields)).toOption = orderOfFields fields
    unfold checked orderOfFields
    cases Order.ofTicket (ticketOfFields fields) <;> rfl

theorem toOption_check (id : OrderId)
    (fields : OrderKind × Symbol × Float × Option Float × Option OrderId) :
    (Placement.check ⟨id, ticketOfFields fields⟩).toOption =
      (orderOfFields fields).map (Prod.mk id) := by
  unfold Placement.check orderOfFields
  cases Order.ofTicket (ticketOfFields fields) <;> rfl

theorem toOption_ofEntries (step : ℕ)
    (fields : OrderKind × Symbol × Float × Option Float × Option OrderId) :
    (Plan.ofEntries [(step, ticketOfFields fields)]).toOption =
      (orderOfFields fields).map fun order => ⟨[⟨step, order⟩]⟩ := by
  unfold Plan.ofEntries Plan.check orderOfFields
  cases Order.ofTicket (ticketOfFields fields) with
  | error fault => rfl
  | ok order =>
    show some (Plan.mk (Plan.sortBySteps [⟨step, order⟩])) = _
    rw [Plan.sortBySteps, List.mergeSort_singleton]
    rfl

/-- A plan of one entry is read as its entry is. -/
theorem toOption_readEntries (t : Json.Tree) :
    (readEntries (.object [(some "orders", .array [t] true)] true)).toOption =
      (readEntry t).toOption.map fun entry => [entry] := by
  show (Except.toOption (do
    let slots ← (Form.one (required "orders" (list readEntry))).enter
      [(some "orders", .array [t] true)] none
    (Form.one (required "orders" (list readEntry))).finish slots)) = _
  have hoffer : (Form.one (required "orders" (list readEntry))).offer "orders" (.array [t] true)
      none = some ((list readEntry (.array [t] true)).map some) := rfl
  have hlist : list readEntry (.array [t] true) = (readEntry t).map fun entry => [entry] := by
    show (do
      let bs ← readAll readEntry [t]
      if true then return bs else .error .unreadable : Except Fault _) = _
    unfold readAll
    cases readEntry t <;> rfl
  rw [Form.enter, hoffer, hlist]
  cases readEntry t <;> rfl

theorem toOption_ofJson (s : String) : (Plan.ofJson s).toOption =
    (parse readEntries s).toOption.bind fun entries => (Plan.ofEntries entries).toOption := by
  unfold Plan.ofJson
  cases parse readEntries s with
  | error fault => rfl
  | ok entries =>
    show _ = (Plan.ofEntries entries).toOption
    simp only
    cases Plan.ofEntries entries <;> rfl

/-- **The three ways to read an order agree.** Let the members of an object be single
values under whatever names, in any order and also repeatedly, none of them named for an
order's number or a step. Then the object read as an order, the object with a number read
as an acknowledged order that is judged afterwards, and a plan whose only entry is the
object with a step are all refused, or they all give one and the same order, with that
number and at that step. -/
theorem order_decoders_agree {ms numbered stepped : List Member} {t u : Json.Tree} {id : OrderId}
    {step : UInt64} {direct beside planned : String} (levels : ℕ)
    (hscalar : ∀ m ∈ ms, m.2.Scalar)
    (hnames : ∀ m ∈ ms, m.1 ≠ some "order_id" ∧ m.1 ≠ some "step")
    (hid : orderId t = .ok id) (hstep : natural u = .ok step)
    (hnumbered : numbered.Perm ((some "order_id", t) :: ms))
    (hstepped : stepped.Perm ((some "step", u) :: ms))
    (hdirect : Json.read direct = (.object ms true, true))
    (hbeside : Json.read beside = (.object numbered true, true))
    (hplanned : Json.read planned =
      (.object [(some "orders", .array [.object stepped true] true)] true, true)) :
    let order := (parse readOrder direct).toOption
    ((parse (readPlacement levels) beside).toOption.bind fun p => p.check.toOption) =
      order.map (Prod.mk id) ∧
    (Plan.ofJson planned).toOption = order.map fun order => ⟨[⟨step.toNat, order⟩]⟩ := by
  intro order
  have horder : order = ((ticketForm .fromText).ofMembers ms true).toOption.bind orderOfFields :=
    (toOption_parse hdirect).trans (toOption_readOrder ms)
  have hfree : ∀ {δ : Type} (field : Field δ), field.alias? = none →
      (∀ m ∈ ms, m.1 ≠ some field.name) → ∀ m ∈ ms, field.takes m = false := by
    intro δ field halias hother m hm
    obtain ⟨name?, value⟩ := m
    cases name? with
    | none => rfl
    | some name =>
      have hname : field.name ≠ name := fun h => hother _ hm (congrArg some h.symm)
      show (field.name == name || field.alias? == some name) = false
      rw [halias, beq_false_of_ne hname]
      rfl
  constructor
  · have hread := readBeside_one (required "order_id" orderId) (ticketForm .kept) (by decide)
      levels hnumbered (hfree _ rfl fun m hm => (hnames m hm).1) hscalar hid
    rw [ofMembers_kept hscalar] at hread
    have hplacement : (readPlacement levels (.object numbered true)).toOption =
        (Form.readBeside (.one (required "order_id" orderId)) (ticketForm .kept) levels
          (.object numbered true)).toOption.map fun r => ⟨r.1, ticketOfFields r.2⟩ := by
      unfold readPlacement
      cases Form.readBeside (.one (required "order_id" orderId)) (ticketForm .kept) levels
        (.object numbered true) <;> rfl
    rw [toOption_parse hbeside, hplacement, hread, horder]
    cases ((ticketForm .fromText).ofMembers ms true).toOption with
    | none => rfl
    | some fields => exact toOption_check id fields
  · have hread := readBeside_one (required "step" natural) (ticketForm .kept) (by decide)
      (maxNesting - 3) hstepped (hfree _ rfl fun m hm => (hnames m hm).2) hscalar hstep
    rw [ofMembers_kept hscalar] at hread
    have hentry : (readEntry (.object stepped true)).toOption =
        (Form.readBeside (.one (required "step" natural)) (ticketForm .kept) (maxNesting - 3)
          (.object stepped true)).toOption.map fun r => (r.1.toNat, ticketOfFields r.2) := by
      unfold readEntry
      cases Form.readBeside (.one (required "step" natural)) (ticketForm .kept) (maxNesting - 3)
        (.object stepped true) <;> rfl
    rw [toOption_ofJson, toOption_parse hplanned, toOption_readEntries, hentry, hread, horder]
    cases ((ticketForm .fromText).ofMembers ms true).toOption with
    | none => rfl
    | some fields => exact toOption_ofEntries step.toNat fields

/-- A limit order with a note that is repeated. -/
def sampleNoted : List (String × Value) :=
  [("note", .bool true), ("order_type", .text "LimitBuy"), ("symbol", .text "ABC"),
    ("qty", .integer 10), ("price", .integer 9), ("note", .null)]

/-- The order is the same beside the number 7 and at step 3. -/
theorem sample_order_decoders : ∃ order : Order Float,
    (parse readOrder (Value.object sampleNoted).render).toOption = some order ∧
    ((parse (readPlacement maxNesting)
      (Value.object (("order_id", .integer 7) :: sampleNoted)).render).toOption.bind
        fun p => p.check.toOption) = some (⟨7⟩, order) ∧
    (Plan.ofJson (Value.object [("orders",
      .array [.object (("step", .integer 3) :: sampleNoted)])]).render).toOption =
        some ⟨[⟨3, order⟩]⟩ := by
  have hscalar : ∀ m ∈ memberTrees sampleNoted, m.2.Scalar := by decide +kernel
  have hnames : ∀ m ∈ memberTrees sampleNoted, m.1 ≠ some "order_id" ∧ m.1 ≠ some "step" := by
    decide +kernel
  obtain ⟨hbeside, hplanned⟩ := order_decoders_agree maxNesting hscalar hnames
    (orderId_toJson ⟨7⟩) (natural_whole 3) (.refl _) (.refl _)
    (Json.read_tree (.object sampleNoted))
    (Json.read_tree (.object (("order_id", .integer 7) :: sampleNoted)))
    (Json.read_tree (.object [("orders", .array [.object (("step", .integer 3) :: sampleNoted)])]))
  have horder : ((parse readOrder (Value.object sampleNoted).render).toOption.map
      Order.toTicket) = some ⟨.limitBuy, ⟨"ABC"⟩, 10, some 9, none⟩ := by
    rw [parse_render]
    decide +kernel
  obtain ⟨order, hread, -⟩ := Option.map_eq_some_iff.mp horder
  rw [hread] at hbeside hplanned
  exact ⟨order, hread, hbeside, hplanned⟩

end Wire
end Brokerage
