/-
# Messages are read back from their text

Each kind of message is written as an object of its fields, and its fields are values,
lists, tables or records that are read back in turn. So the one argument goes from the
inside out: what is read back of a field is told by a lemma of its own, and a record is read
back from its members (`Fills.read`). Two messages need more. A request is tried as one for
a dataset first, and one for a range must fail there (`request_toJson`). An acknowledged
order shares its object with its number, which takes none of the members of the order
(`placement_toJson`).

Key definitions: `StepReply.amounts`, `StepReply.Keyed`, `Opening.amounts`, `Opening.Keyed`.
Key theorems: `request_toJson`, `placement_toJson`, `stepReply_toJson`,
`messages_round_trip`.
-/
import Brokerage.Proofs.OrderText

namespace Brokerage

open Json (Member Value memberTrees optionalMember)

/-! ### Amounts of a message -/

def Quote.amounts (q : Quote Float) : List Float :=
  [q.bid, q.ask, q.bidVolume, q.askVolume]

def Level.amounts (l : Level Float) : List Float :=
  [l.price, l.size]

def Depth.amounts (d : Depth Float) : List Float :=
  (d.bids ++ d.asks).flatMap Level.amounts

/-- The amounts of a market: its quotes and depths. -/
def marketAmounts (quotes : Quotes Float) (depths : Depths Float) : List Float :=
  quotes.entries.flatMap (·.2.amounts) ++ depths.entries.flatMap (·.2.amounts)

def Opening.amounts (o : Opening Float) : List Float :=
  marketAmounts o.quotes o.depths

def Execution.amounts (e : Execution Float) : List Float :=
  [e.value, e.quantity]

def StepReply.amounts (r : StepReply Float) : List Float :=
  r.executed.flatMap Execution.amounts ++ r.inserted.flatMap (·.ticket.amounts) ++
    marketAmounts r.quotes r.depths

/-- Each symbol has one quote and one depth at most. -/
def Opening.Keyed (o : Opening Float) : Prop :=
  o.quotes.Distinct ∧ o.depths.Distinct

def StepReply.Keyed (r : StepReply Float) : Prop :=
  r.quotes.Distinct ∧ r.depths.Distinct

namespace Wire

/-! ### The market -/

theorem quote_toJson {q : Quote Float} (h : ∀ x ∈ q.amounts, ReadsBack x) :
    readQuote q.toJson.tree = .ok q := by
  simp only [Quote.amounts, List.forall_mem_cons] at h
  obtain ⟨hbid, hask, hbidVolume, haskVolume, -⟩ := h
  have hread : quoteForm.read q.toJson.tree =
      .ok (q.bid, q.ask, q.bidVolume, q.askVolume, q.date) :=
    Fills.read (.next hbid.amount (.next hask.amount (.next hbidVolume.amount
      (.next haskVolume.amount (.given (integer_whole q.date)))))) (by decide)
  unfold readQuote
  rw [hread]
  rfl

theorem level_toJson {l : Level Float} (h : ∀ x ∈ l.amounts, ReadsBack x) :
    readLevel l.toJson.tree = .ok l := by
  simp only [Level.amounts, List.forall_mem_cons] at h
  obtain ⟨hprice, hsize, -⟩ := h
  have hread : levelForm.read l.toJson.tree = .ok (l.price, l.size) :=
    Fills.read (.next hprice.amount (.given hsize.amount)) (by decide)
  unfold readLevel
  rw [hread]
  rfl

theorem depth_toJson {d : Depth Float} (h : ∀ x ∈ d.amounts, ReadsBack x) :
    readDepth d.toJson.tree = .ok d := by
  have hlevels : ∀ l ∈ d.bids ++ d.asks, readLevel l.toJson.tree = .ok l := fun l hl =>
    level_toJson fun x hx => h x (List.mem_flatMap.mpr ⟨l, hl, hx⟩)
  rw [List.forall_mem_append] at hlevels
  have hread : depthForm.read d.toJson.tree = .ok (d.bids, d.asks) :=
    Fills.read (.next (list_of_items hlevels.1) (.given (list_of_items hlevels.2))) (by decide)
  unfold readDepth
  rw [hread]
  rfl

/-- Quotes and depths are read back. -/
theorem market_toJson {quotes : Quotes Float} {depths : Depths Float}
    (h : ∀ x ∈ marketAmounts quotes depths, ReadsBack x) (hquotes : quotes.Distinct)
    (hdepths : depths.Distinct) : readQuotes (tableJson Quote.toJson quotes).tree = .ok quotes ∧
      readDepths (tableJson Depth.toJson depths).tree = .ok depths := by
  unfold marketAmounts at h
  rw [List.forall_mem_append] at h
  constructor
  · refine table_of_entries (fun e he => quote_toJson fun x hx => ?_) hquotes
    exact h.1 x (List.mem_flatMap.mpr ⟨e, he, hx⟩)
  · refine table_of_entries (fun e he => depth_toJson fun x hx => ?_) hdepths
    exact h.2 x (List.mem_flatMap.mpr ⟨e, he, hx⟩)

theorem nullable_integer (t : Timestamp) :
    nullable integer (Value.integer t.toInt).tree = .ok (some t) :=
  nullable_some (integer_whole t) nofun

/-! ### Requests and openings -/

/-- A request can be kept. -/
theorem strict_request (r : SessionRequest) : r.toJson.tree.strict maxNesting = true := by
  have htime : ∀ t : Timestamp, t.toInt.natAbs < 2 ^ 64 := fun t => by
    have hlow := t.le_toInt
    have hhigh := t.toInt_lt
    omega
  cases r with
  | dataset name => rfl
  | range first last frequency =>
    have hfrequency : (frequency.toNat : ℤ).natAbs < 2 ^ 64 := frequency.toNat_lt
    show (true && (true && (Json.Tree.number _).strict 126 && (true &&
      (Json.Tree.number _).strict 126 && (true && (Json.Tree.number _).strict 126 && true)))) = true
    rw [strict_whole (htime first), strict_whole (htime last), strict_whole hfrequency]
    rfl

/-- **A request is read back in its own form.** One for a range lacks what one for a dataset
must have. -/
theorem request_toJson (r : SessionRequest) : readRequest r.toJson.tree = .ok r := by
  have hstrict := strict_request r
  unfold readRequest
  rw [hstrict]
  cases r with
  | dataset name => rfl
  | range first last frequency =>
    have hother : datasetForm.ofMembers (memberTrees [("start_date", .integer first.toInt),
        ("end_date", .integer last.toInt), ("frequency", .integer frequency.toNat)]) true =
        .error (.missing "dataset") := rfl
    have hrange : rangeForm.ofMembers (memberTrees [("start_date", .integer first.toInt),
        ("end_date", .integer last.toInt), ("frequency", .integer frequency.toNat)]) true =
        .ok (first, last, frequency) :=
      Fills.ofMembers (.next (integer_whole first) (.next (integer_whole last)
        (.given (natural_whole frequency)))) (by decide)
    simp only [SessionRequest.toJson, Value.tree, hother, hrange]
    rfl

theorem opening_toJson {o : Opening Float} (h : ∀ x ∈ o.amounts, ReadsBack x) (hkeys : o.Keyed) :
    readOpening o.toJson.tree = .ok o := by
  obtain ⟨hquotes, hdepths⟩ := market_toJson h hkeys.1 hkeys.2
  have hread : openingForm.read o.toJson.tree = .ok (o.session, o.quotes, o.depths) :=
    Fills.read (.next (sessionId_toJson o.session) (.next hquotes (.given hdepths))) (by decide)
  unfold readOpening
  rw [hread]
  rfl

/-! ### Orders and executions -/

/-- The members of an order can be kept. -/
theorem strict_members (levels : ℕ) {t : Ticket Float} (h : ∀ x ∈ t.amounts, ReadsBack x) :
    ∀ m ∈ memberTrees t.members, m.2.strict levels = true := by
  obtain ⟨hquantity, hprice⟩ := List.forall_mem_cons.mp h
  have htext : ∀ s : String, (Value.text s).tree.strict levels = true := fun s => by
    cases levels <;> rfl
  have hid : ∀ id : OrderId, id.toJson.tree.strict levels = true := fun id =>
    strict_whole (show (id.value.toNat : ℤ).natAbs < 2 ^ 64 from id.value.toNat_lt) levels
  have hfirst : ∀ m ∈ memberTrees [("order_type", .text t.kind.name), ("symbol", t.symbol.toJson),
      ("qty", .amount t.quantity)], m.2.strict levels = true :=
    List.forall_mem_cons.mpr ⟨htext _, List.forall_mem_cons.mpr ⟨htext _,
      List.forall_mem_singleton.mpr (hquantity.strict levels)⟩⟩
  unfold Ticket.members
  rw [Json.memberTrees_append, Json.memberTrees_append, List.forall_mem_append,
    List.forall_mem_append]
  refine ⟨⟨hfirst, ?_⟩, ?_⟩
  · cases hp : t.price with
    | none => exact nofun
    | some x =>
      have hx : ReadsBack x := hprice x (by rw [hp]; exact List.mem_singleton_self x)
      exact List.forall_mem_singleton.mpr (hx.strict levels)
  · cases t.reference with
    | none => exact nofun
    | some id => exact List.forall_mem_singleton.mpr (hid id)

/-- **An acknowledged order is read back beside its number.** -/
theorem placement_toJson (levels : ℕ) {p : Placement Float}
    (h : ∀ x ∈ p.ticket.amounts, ReadsBack x) : readPlacement levels p.toJson.tree = .ok p := by
  have hstrict := strict_members levels h
  have hread : Form.readBeside (.one (required "order_id" orderId)) (ticketForm .kept) levels
      p.toJson.tree = .ok (p.id, p.ticket.kind, p.ticket.symbol, p.ticket.quantity,
        p.ticket.price, p.ticket.reference) :=
    readBeside_of_fills (orderId_toJson p.id) (ticket_fills .kept h) (by decide) hstrict
  unfold readPlacement
  rw [hread]
  rfl

theorem execution_toJson {e : Execution Float} (h : ∀ x ∈ e.amounts, ReadsBack x) :
    readExecution e.toJson.tree = .ok e := by
  simp only [Execution.amounts, List.forall_mem_cons] at h
  obtain ⟨hvalue, hquantity, -⟩ := h
  have hread : executionForm.read e.toJson.tree =
      .ok (e.symbol, e.value, e.quantity, e.date, e.kind, e.order, e.reference) :=
    Fills.read (.next rfl (.next hvalue.amount (.next hquantity.amount
      (.next (integer_whole e.date) (.next (executionKind_name e.kind)
        (.next (orderId_toJson e.order)
          (fills_optional rfl fun id _ => nullable_orderId id))))))) (by decide)
  unfold readExecution
  rw [hread]
  rfl

theorem submission_toJson {orders : List (Order Float)}
    (h : ∀ order ∈ orders, ∀ x ∈ order.amounts, ReadsBack x) :
    readSubmission (submissionJson orders).tree = .ok orders := by
  have horders : list readOrder (Value.array (orders.map fun order => order.toTicket.toJson)).tree =
      .ok orders := list_of_items fun order ho => readOrder_toJson (h order ho)
  exact Fills.read (.given horders) (by decide)

/-! ### Steps -/

/-- **A reply is read back,** its lists and tables with everything in them. -/
theorem stepReply_toJson {r : StepReply Float} (h : ∀ x ∈ r.amounts, ReadsBack x)
    (hkeys : r.Keyed) : readStepReply r.toJson.tree = .ok r := by
  unfold StepReply.amounts at h
  rw [List.forall_mem_append, List.forall_mem_append] at h
  obtain ⟨⟨hexecuted, hinserted⟩, hmarket⟩ := h
  obtain ⟨hquotes, hdepths⟩ := market_toJson hmarket hkeys.1 hkeys.2
  have hexecutions : ∀ e ∈ r.executed, readExecution e.toJson.tree = .ok e := fun e he =>
    execution_toJson fun x hx => hexecuted x (List.mem_flatMap.mpr ⟨e, he, hx⟩)
  have hplacements : ∀ p ∈ r.inserted, readPlacement (maxNesting - 3) p.toJson.tree = .ok p :=
    fun p hp => placement_toJson _ fun x hx => hinserted x (List.mem_flatMap.mpr ⟨p, hp, hx⟩)
  have hread : stepForm.read r.toJson.tree =
      .ok (r.hasNext, r.executed, r.inserted, r.quotes, r.depths, r.now) :=
    Fills.read (.next rfl (.next (list_of_items hexecutions) (.next (list_of_items hplacements)
      (.next hquotes (.next hdepths (fills_optional rfl fun t _ => nullable_integer t))))))
      (by decide)
  unfold readStepReply
  rw [hread]
  rfl

/-! ### Other answers -/

theorem info_toJson (info : SessionInfo) : readInfo info.toJson.tree = .ok info := by
  have hdataset : nullable text (Value.ofOption .text info.dataset).tree = .ok info.dataset := by
    cases info.dataset <;> rfl
  have hread : infoForm.read info.toJson.tree = .ok (info.version, info.dataset) :=
    Fills.read (.next rfl (.given hdataset)) (by decide)
  unfold readInfo
  rw [hread]
  rfl

theorem span_toJson (span : DatasetSpan) : readSpan span.toJson.tree = .ok span := by
  have hread : spanForm.read span.toJson.tree = .ok (span.first, span.last) :=
    Fills.read (.next (integer_whole span.first) (.given (integer_whole span.last))) (by decide)
  unfold readSpan
  rw [hread]
  rfl

theorem clock_toJson (clock : Clock) : readClock clock.toJson.tree = .ok clock := by
  have hread : clockForm.read clock.toJson.tree = .ok (clock.now, clock.hasNext) :=
    Fills.read (.next (integer_whole clock.now) (.given rfl)) (by decide)
  unfold readClock
  rw [hread]
  rfl

/-! ### All messages -/

/-- The number of an acknowledged order is a member of its own. -/
theorem nodup_placement (p : Placement Float) :
    ((memberTrees (("order_id", p.id.toJson) :: p.ticket.members)).map (·.1)).Nodup := by
  rw [memberTrees, List.map_cons, names_members]
  show (some "order_id" :: _).Nodup
  cases p.ticket.price.isSome <;> cases p.ticket.reference.isSome <;> decide

/-- **Every message is read back from its text,** provided that its amounts are: a request, in
the form that it has, the opening of a session, the reply to a step, a submission, an
execution, an acknowledged order, whose number shares its object with the fields of the order
and no name with them, what the service tells of itself and of its data, and the clock. A
table of quotes or depths has one entry for a symbol. -/
theorem messages_round_trip :
    (∀ r : SessionRequest, parse readRequest r.toJson.render = .ok r) ∧
    (∀ o : Opening Float, (∀ x ∈ o.amounts, ReadsBack x) → o.Keyed →
      parse readOpening o.toJson.render = .ok o) ∧
    (∀ r : StepReply Float, (∀ x ∈ r.amounts, ReadsBack x) → r.Keyed →
      parse readStepReply r.toJson.render = .ok r) ∧
    (∀ orders : List (Order Float), (∀ order ∈ orders, ∀ x ∈ order.amounts, ReadsBack x) →
      parse readSubmission (submissionJson orders).render = .ok orders) ∧
    (∀ e : Execution Float, (∀ x ∈ e.amounts, ReadsBack x) →
      parse readExecution e.toJson.render = .ok e) ∧
    (∀ (p : Placement Float) (levels : ℕ), (∀ x ∈ p.ticket.amounts, ReadsBack x) →
      parse (readPlacement levels) p.toJson.render = .ok p) ∧
    (∀ p : Placement Float, ∃ members : List Member,
      Json.read p.toJson.render = (.object members true, true) ∧ (members.map (·.1)).Nodup) ∧
    (∀ info : SessionInfo, parse readInfo info.toJson.render = .ok info) ∧
    (∀ span : DatasetSpan, parse readSpan span.toJson.render = .ok span) ∧
    ∀ clock : Clock, parse readClock clock.toJson.render = .ok clock := by
  simp only [parse_render]
  refine ⟨request_toJson, fun o => opening_toJson, fun r => stepReply_toJson,
    fun orders => submission_toJson, fun e => execution_toJson,
    fun p levels => placement_toJson levels, fun p => ⟨_, Json.read_tree _, nodup_placement p⟩,
    info_toJson, span_toJson, clock_toJson⟩

/-- A step in which a share was bought and a limit order came to rest. -/
def filledReply : StepReply Float where
  hasNext := true
  executed := [.bought ⟨"AAPL"⟩ 9.5 1.0 100 ⟨1⟩]
  inserted := [⟨⟨2⟩, ⟨.limitSell, ⟨"AAPL"⟩, 1.0, some 10.0, none⟩⟩]
  quotes := ⟨[(⟨"AAPL"⟩, ⟨9.5, 10.0, 1.0, 1.0, 100⟩)]⟩
  depths := ⟨[(⟨"AAPL"⟩, ⟨[⟨9.5, 1.0⟩], []⟩)]⟩
  now := some 100

theorem filledReply_round_trip :
    (∀ x ∈ filledReply.amounts, ReadsBack x) ∧ filledReply.Keyed ∧
      parse readStepReply filledReply.toJson.render = .ok filledReply := by
  have hone : ReadsBack 1.0 := rfl
  have hbid : ReadsBack 9.5 := rfl
  have hask : ReadsBack 10.0 := rfl
  have hamounts : ∀ x ∈ filledReply.amounts, ReadsBack x := by
    show ∀ x ∈ [9.5, 1.0, 1.0, 10.0, 9.5, 10.0, 1.0, 1.0, 9.5, 1.0], ReadsBack x
    simp only [List.forall_mem_cons]
    exact ⟨hbid, hone, hone, hask, hbid, hask, hone, hone, hbid, hone, nofun⟩
  have hkeys : filledReply.Keyed := ⟨List.nodup_singleton _, List.nodup_singleton _⟩
  exact ⟨hamounts, hkeys, messages_round_trip.2.2.1 filledReply hamounts hkeys⟩

end Wire
end Brokerage
