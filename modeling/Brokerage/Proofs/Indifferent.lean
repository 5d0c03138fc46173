/-
# Messages whose text may vary

Each message has its layout: the names of its fields and how their values are laid out in
turn. Its decoder is lenient because the readers of its fields are, down to the single
values. So the value that is decoded does not depend on the order of members or on members
that nobody knows, and no text that tells a field twice is decoded
(`decoders_indifferent`).

A name that a record does not know must still be one that can be read
(`unreadable_name_refused`).

Key definitions: `Indifferent`, `Shape.quote`, `Shape.depth`, `Shape.execution`,
`Shape.order`, `Shape.placement`, `Shape.opening`, `Shape.stepReply`, `Shape.plan`,
`Opening.told`, `StepReply.told`.
Key theorems: `Lenient.edited_all`, `Lenient.indifferent`, `decoders_indifferent`.
-/
import Brokerage.Proofs.JsonText
import Brokerage.Proofs.Rearranged

namespace Brokerage

open Json (Tree Member Value)

/-- What an opening tells: a table tells what it holds under each symbol. -/
def Opening.told (o : Opening Float) :
    SessionId × (Symbol → Option (Quote Float)) × (Symbol → Option (Depth Float)) :=
  (o.session, o.quotes.get?, o.depths.get?)

/-- What the reply to a step tells: a table tells what it holds under each symbol. -/
def StepReply.told (r : StepReply Float) :
    Bool × List (Execution Float) × List (Placement Float) × (Symbol → Option (Quote Float)) ×
      (Symbol → Option (Depth Float)) × Option Timestamp :=
  (r.hasNext, r.executed, r.inserted, r.quotes.get?, r.depths.get?, r.now)

namespace Wire

/-- As far as `view` tells, the decoded value does not change with edits of the text, and a
text that repeats a field is not decoded. -/
structure Indifferent {φ β γ : Type} (s : Shape) (decode : String → Except φ β) (view : β → γ) :
    Prop where
  rearranged : ∀ {text edited : String} {t u : Tree} {b : β}, Json.read text = (t, true) →
    Json.read edited = (u, true) → Relation.ReflTransGen (Edit s) t u → decode text = .ok b →
    ∃ c, decode edited = .ok c ∧ view c = view b
  repeated : ∀ {text : String} {t : Tree} {alone : Bool} {b : β}, Json.read text = (t, alone) →
    Repeats s t → decode text ≠ .ok b

namespace Lenient

variable {β γ : Type} {s : Shape} {read : Reader β} {view : β → γ}

/-- Edits come one after the other. -/
theorem edited_all (h : Lenient s read view) {t u : Tree} {b : β}
    (hedits : Relation.ReflTransGen (Edit s) t u) (hb : read t = .ok b) :
    ∃ c, read u = .ok c ∧ view c = view b := by
  induction hedits with
  | refl => exact ⟨b, hb, rfl⟩
  | tail _ hedit ih =>
    obtain ⟨c, hc, hview⟩ := ih
    obtain ⟨d, hd, hview'⟩ := h.edited hedit hc
    exact ⟨d, hd, hview'.trans hview⟩

/-- **A lenient reader makes an indifferent decoder.** -/
theorem indifferent (h : Lenient s read view) : Indifferent s (parse read) view where
  rearranged := by
    intro text edited t u b htext hedited hedits hb
    obtain ⟨hb, -⟩ := parse_ok_iff.mp hb
    rw [htext] at hb
    obtain ⟨c, hc, hview⟩ := h.edited_all hedits hb
    refine ⟨c, parse_ok_iff.mpr ?_, hview⟩
    rw [hedited]
    exact ⟨hc, rfl⟩
  repeated := by
    intro text t alone b htext hrepeats hb
    obtain ⟨hb, -⟩ := parse_ok_iff.mp hb
    rw [htext] at hb
    exact h.repeated hrepeats hb

end Lenient

/-! ### Layouts of messages -/

namespace Shape

def quote : Shape :=
  .record [(["bid"], .value), (["ask"], .value), (["bid_volume"], .value), (["ask_volume"], .value),
    (["date", "timestamp"], .value)] none

def level : Shape :=
  .record [(["price"], .value), (["size"], .value)] none

def depth : Shape :=
  .record [(["bids"], .list level), (["asks"], .list level)] none

def execution : Shape :=
  .record [(["symbol"], .value), (["value"], .value), (["quantity"], .value), (["date"], .value),
    (["typ"], .value), (["order_id"], .value), (["order_id_ref"], .value)] none

/-- The fields of an order. -/
def ticketFields : List (List String × Shape) :=
  [(["order_type"], .value), (["symbol"], .value), (["qty"], .value), (["price"], .value),
    (["order_id_ref"], .value)]

def order : Shape :=
  .record ticketFields none

/-- An order beside its number. -/
def placement (levels : ℕ) : Shape :=
  .record ((["order_id"], .value) :: ticketFields) (some levels)

/-- An order beside its step. -/
def entry : Shape :=
  .record ((["step"], .value) :: ticketFields) (some (maxNesting - 3))

def plan : Shape :=
  .record [(["orders"], .list entry)] none

def opening : Shape :=
  .record [(["backtest_id", "session_id"], .value), (["bbo"], .table quote),
    (["depth"], .table depth)] none

def stepReply : Shape :=
  .record [(["has_next"], .value), (["executed_orders"], .list execution),
    (["inserted_orders"], .list (placement (maxNesting - 3))), (["bbo"], .table quote),
    (["depth"], .table depth), (["now"], .value)] none

end Shape

open Form.Lenient (next_exact)

theorem lenient_quote : Lenient .quote readQuote id := by
  have hform : quoteForm.Lenient _ id := next_exact (.value _ _) (next_exact (.value _ _)
    (next_exact (.value _ _) (next_exact (.value _ _) (.one (.value _ _)))))
  exact (Lenient.record hform (by decide)).bind_exact _

theorem lenient_level : Lenient .level readLevel id := by
  have hform : levelForm.Lenient _ id := next_exact (.value _ _) (.one (.value _ _))
  exact (Lenient.record hform (by decide)).bind_exact _

theorem lenient_depth : Lenient .depth readDepth id := by
  have hform : depthForm.Lenient _ id :=
    next_exact lenient_level.list_exact (.one lenient_level.list_exact)
  exact (Lenient.record hform (by decide)).bind_exact _

theorem lenient_execution : Lenient .execution readExecution id := by
  have hform : executionForm.Lenient _ id := next_exact (.value _ _) (next_exact (.value _ _)
    (next_exact (.value _ _) (next_exact (.value _ _) (next_exact (.value _ _)
      (next_exact (.value _ _) (.one (.value _ _)))))))
  exact (Lenient.record hform (by decide)).bind_exact _

theorem lenient_ticketForm (source : Source) :
    (ticketForm source).Lenient Shape.ticketFields id := by
  have hform : (ticketForm source).Lenient _ id := next_exact (.value _ _) (next_exact (.value _ _)
    (next_exact (.value _ _) (next_exact (.value _ _) (.one (.value _ _)))))
  exact hform

theorem lenient_order : Lenient .order readOrder id := by
  have hticket : Lenient .order readTicket id := by
    have hrecord := Lenient.record (lenient_ticketForm .fromText) (by decide)
    exact hrecord.bind_exact fun fields => .ok (ticketOfFields fields)
  exact hticket.bind_exact checked

theorem lenient_placement (levels : ℕ) : Lenient (.placement levels) (readPlacement levels) id := by
  have hform : (Form.both (.one (required "order_id" orderId)) (ticketForm .kept)).Lenient _ id :=
    next_exact (.value _ _) (lenient_ticketForm .kept)
  exact (Lenient.beside hform (by decide)).bind_exact _

theorem lenient_entry : Lenient .entry readEntry id := by
  have hform : (Form.both (.one (required "step" natural)) (ticketForm .kept)).Lenient _ id :=
    next_exact (.value _ _) (lenient_ticketForm .kept)
  exact (Lenient.beside hform (by decide)).bind_exact _

theorem lenient_entries : Lenient .plan readEntries id := by
  have hform : (Form.one (required "orders" (list readEntry))).Lenient _ id :=
    .one lenient_entry.list_exact
  exact Lenient.record hform (by decide)

theorem lenient_opening : Lenient .opening readOpening Opening.told := by
  have hform : openingForm.Lenient _ (Prod.map id (Prod.map Table.get? Table.get?)) :=
    .next (.value _ _) (.next lenient_quote.table_exact (.one lenient_depth.table_exact))
  refine (Lenient.record hform (by decide)).bind fun b c o htold ho => ?_
  cases ho
  exact ⟨_, rfl, htold⟩

theorem lenient_stepReply : Lenient .stepReply readStepReply StepReply.told := by
  have hform : stepForm.Lenient _
      (Prod.map id (Prod.map id (Prod.map id (Prod.map Table.get? (Prod.map Table.get? id))))) :=
    .next (.value _ _) (.next lenient_execution.list_exact
      (.next (lenient_placement _).list_exact (.next lenient_quote.table_exact
        (.next lenient_depth.table_exact (.one (.value _ _))))))
  refine (Lenient.record hform (by decide)).bind fun b c r htold hr => ?_
  cases hr
  exact ⟨_, rfl, htold⟩

/-- A plan is made of its entries. -/
theorem indifferent_plan : Indifferent .plan Plan.ofJson id := by
  have hread := lenient_entries.indifferent
  have hentries : ∀ {text : String} {plan : Plan Float}, Plan.ofJson text = .ok plan →
      ∃ entries, parse readEntries text = .ok entries ∧ Plan.ofEntries entries = .ok plan := by
    intro text plan h
    unfold Plan.ofJson at h
    cases hparse : parse readEntries text with
    | error fault =>
      rw [hparse] at h
      cases h
    | ok entries =>
      rw [hparse] at h
      simp only at h
      cases hplan : Plan.ofEntries entries with
      | error entry =>
        rw [hplan] at h
        cases h
      | ok made =>
        rw [hplan] at h
        cases h
        exact ⟨entries, rfl, hplan⟩
  constructor
  · intro text edited t u plan htext hedited hedits hplan
    obtain ⟨entries, hparse, hmade⟩ := hentries hplan
    obtain ⟨others, hothers, hsame⟩ := hread.rearranged htext hedited hedits hparse
    obtain rfl : others = entries := hsame
    refine ⟨plan, ?_, rfl⟩
    unfold Plan.ofJson
    rw [hothers]
    simp only [hmade]
  · intro text t alone plan htext hrepeats hplan
    obtain ⟨entries, hparse, -⟩ := hentries hplan
    exact hread.repeated htext hrepeats hparse

/-- **No decoder takes notice of the order of members or of members that nobody knows,** at
any level of the message and whatever stands in them, as long as the names can be read and,
where such members are kept, the values can be kept; and none decodes a text in which two
members go by names of one field. -/
theorem decoders_indifferent :
    Indifferent .stepReply (parse readStepReply) StepReply.told ∧
    Indifferent .opening (parse readOpening) Opening.told ∧
    Indifferent .execution (parse readExecution) id ∧
    Indifferent .order (parse readOrder) id ∧
    (∀ levels, Indifferent (.placement levels) (parse (readPlacement levels)) id) ∧
    Indifferent .quote (parse readQuote) id ∧
    Indifferent .depth (parse readDepth) id ∧
    Indifferent .plan Plan.ofJson id :=
  ⟨lenient_stepReply.indifferent, lenient_opening.indifferent, lenient_execution.indifferent,
    lenient_order.indifferent, fun levels => (lenient_placement levels).indifferent,
    lenient_quote.indifferent, lenient_depth.indifferent, indifferent_plan⟩

/-! ### Sample texts -/

/-- The text of a quote, with `more` in front of them. -/
def sampleQuoteText (more : String) : String :=
  "\x7b" ++ more ++ "\"bid\":1,\"ask\":2,\"bid_volume\":3,\"ask_volume\":4,\"date\":5\x7d"

def sampleDigit (digit : ℕ) : Tree :=
  .number ⟨false, [digit], [], 0, true⟩

def sampleQuoteMembers : List Member :=
  [(some "bid", sampleDigit 1), (some "ask", sampleDigit 2), (some "bid_volume", sampleDigit 3),
    (some "ask_volume", sampleDigit 4), (some "date", sampleDigit 5)]

/-- A member that a quote does not know, whose value is no number that fits. -/
def sampleStranger : Member :=
  (some "last", .array [.number ⟨false, [1], [], 999, false⟩] true)

/-- An opening that tells one quote between the members `front` and `back`. -/
def sampleOpeningText (front more back : String) : String :=
  "\x7b" ++ front ++ "\"bbo\":\x7b\"ABC\":" ++ sampleQuoteText more ++ "\x7d" ++ back ++ "\x7d"

def sampleTable (more : List Member) : Member :=
  (some "bbo", .object [(some "ABC", .object (more ++ sampleQuoteMembers) true)] true)

def sampleOpening (front more back : List Member) : Tree :=
  .object (front ++ sampleTable more :: back) true

theorem exists_ok {φ β : Type} : ∀ {x : Except φ β}, x.toOption.isSome = true → ∃ b, x = .ok b
  | .ok b, _ => ⟨b, rfl⟩

/-- The quote of an opening gets a member that it does not know, and the number of the
session goes to the end; a second number is refused, also under the other name. -/
theorem sample_indifferent : ∃ opening other : Opening Float,
    parse readOpening (sampleOpeningText "\"session_id\":7," "" "") = .ok opening ∧
    parse readOpening (sampleOpeningText "" "\"last\":[1e999]," ",\"session_id\":7") = .ok other ∧
    other.told = opening.told ∧
    ∀ b, parse readOpening (sampleOpeningText "\"session_id\":7," "" ",\"backtest_id\":7") ≠
      .ok b := by
  have hindifferent := decoders_indifferent.2.1
  have htext : Json.read (sampleOpeningText "\"session_id\":7," "" "") =
      (sampleOpening [(some "session_id", sampleDigit 7)] [] [], true) := by
    cbv
  have hedited : Json.read (sampleOpeningText "" "\"last\":[1e999]," ",\"session_id\":7") =
      (sampleOpening [] [sampleStranger] [(some "session_id", sampleDigit 7)], true) := by
    cbv
  have hdoubled : Json.read (sampleOpeningText "\"session_id\":7," "" ",\"backtest_id\":7") =
      (sampleOpening [(some "session_id", sampleDigit 7)] []
        [(some "backtest_id", sampleDigit 7)], true) := by
    cbv
  have hinsert : Edit .quote (.object ([] ++ sampleQuoteMembers) true)
      (.object ([] ++ sampleStranger :: sampleQuoteMembers) true) :=
    .insert (by unfold Unknown; decide) rfl
  have hfield : Edit .opening (sampleOpening [(some "session_id", sampleDigit 7)] [] [])
      (sampleOpening [(some "session_id", sampleDigit 7)] [sampleStranger] []) := by
    refine .field (List.mem_cons_of_mem _ List.mem_cons_self) List.mem_cons_self ?_
    have hentry : Edit (.table .quote)
        (.object ([] ++ (some "ABC", .object sampleQuoteMembers true) :: []) true) _ :=
      .entry hinsert
    exact hentry
  have hperm : Edit .opening
      (sampleOpening [(some "session_id", sampleDigit 7)] [sampleStranger] [])
      (sampleOpening [] [sampleStranger] [(some "session_id", sampleDigit 7)]) :=
    .permute (List.Perm.swap _ _ [])
  obtain ⟨opening, hopening⟩ : ∃ o, parse readOpening
      (sampleOpeningText "\"session_id\":7," "" "") = .ok o := exists_ok (by decide +kernel)
  obtain ⟨other, hother, htold⟩ :=
    hindifferent.rearranged htext hedited (.tail (.single hfield) hperm) hopening
  refine ⟨opening, other, hopening, hother, htold, fun b => hindifferent.repeated hdoubled ?_⟩
  have hrepeats : Repeats .opening (.object ([] ++ (some "session_id", sampleDigit 7) ::
      ([sampleTable []] ++ (some "backtest_id", sampleDigit 7) :: [])) true) :=
    .here List.mem_cons_self (List.mem_cons_of_mem _ List.mem_cons_self) List.mem_cons_self
  exact hrepeats

/-- A name with half of a surrogate pair is none that a quote knows, and the text breaks no
rule; yet it is not decoded. -/
theorem unreadable_name_refused : ∃ quote : Quote Float,
    Json.read (sampleQuoteText "") = (.object sampleQuoteMembers true, true) ∧
    parse readQuote (sampleQuoteText "") = .ok quote ∧
    Json.read (sampleQuoteText "\"\\ud800\":0,") =
      (.object ((none, sampleDigit 0) :: sampleQuoteMembers) true, true) ∧
    (sampleDigit 0).sound = true ∧
    ∀ b, parse readQuote (sampleQuoteText "\"\\ud800\":0,") ≠ .ok b := by
  obtain ⟨quote, hquote⟩ : ∃ q, parse readQuote (sampleQuoteText "") = .ok q :=
    exists_ok (by decide +kernel)
  have hrefused : (parse readQuote (sampleQuoteText "\"\\ud800\":0,")).toOption.isNone = true := by
    decide +kernel
  refine ⟨quote, by cbv, hquote, by cbv, rfl, fun b hb => ?_⟩
  rw [hb] at hrefused
  cases hrefused

end Wire
end Brokerage
