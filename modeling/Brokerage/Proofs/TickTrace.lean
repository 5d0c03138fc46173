/-
# What a tick shows its observer

A tick enters its events in the journal in one order: the rejections of the flush, the
batch that is submitted, the executions that are booked, the orders that come to rest
and, if it gets so far, how it ended (`TickTrace.events`). Each stage enters what it does
to the account, the trade log, the resting orders and the values, so that the trace of a
tick tells all of these (`Broker.tick_trace`).

Key definitions: `TickTrace`, `TickTrace.events`, `Ledger.Books`, `Broker.Begins`,
`Broker.Closes`, `Broker.Traces`.
Key theorems: `Broker.feed_executions_enters`, `Broker.feed_placements_enters`,
`Broker.conclude_closes`, `Broker.applyStep_shows`, `Broker.tick_trace`.
-/
import Brokerage.Proofs.Discipline
import Brokerage.Proofs.History

namespace Brokerage

variable {σ α : Type} [Amount α]

namespace Event

/-- An execution that was booked, with the cash reported after it. -/
def result? : Event α → Option (Execution α × α)
  | .resultApplied e cash => some (e, cash)
  | _ => none

/-- An order that came to rest. -/
def resting? : Event α → Option (OrderId × Order α)
  | .orderResting id order => some (id, order)
  | _ => none

/-- The value of a completed tick. -/
def value? : Event α → Option α
  | .tickCompleted _ value => some value
  | _ => none

def isStart : Event α → Bool
  | .sessionStarted _ => true
  | _ => false

def isEnd : Event α → Bool
  | .sessionFinished => true
  | _ => false

end Event

/-- What a tick enters in the journal, stage by stage. -/
structure TickTrace (α : Type) [Amount α] where
  rejected : List (Rejection α)
  batches : List (List (Order α))
  /-- Each with the cash after it. -/
  applied : List (Execution α × α)
  resting : List (OrderId × Order α)
  closing : List (Event α)

namespace TickTrace

/-- The executions that were booked and the orders that came to rest, as they are shown. -/
def itemEvents (applied : List (Execution α × α)) (resting : List (OrderId × Order α)) :
    List (Event α) :=
  applied.map (fun entry => .resultApplied entry.1 entry.2) ++
    resting.map fun entry => .orderResting entry.1 entry.2

def events (t : TickTrace α) : List (Event α) :=
  t.rejected.map .orderRejected ++ t.batches.map .ordersSubmitted ++
    itemEvents t.applied t.resting ++ t.closing

/-- The trace of a tick that comes too late. -/
def blank : TickTrace α := ⟨[], [], [], [], []⟩

/-- Executions are shown before the orders that come to rest. -/
theorem itemEvents_append {applied more : List (Execution α × α)}
    {resting further : List (OrderId × Order α)} (h : resting = [] ∨ more = []) :
    itemEvents applied resting ++ itemEvents more further =
      itemEvents (applied ++ more) (resting ++ further) := by
  unfold itemEvents
  rcases h with rfl | rfl <;> simp

end TickTrace

/-- The executions are booked upon `l` one after the other, each leaves the cash that is
told with it, and `m` is what they make of `l`. -/
def Ledger.Books : Ledger α → List (Execution α × α) → Ledger α → Prop
  | l, [], m => l = m
  | l, (e, cash) :: booked, m => ∃ next, l.apply e = .ok next ∧ next.cash = cash ∧
      next.Books booked m

namespace Ledger

theorem Books.append : ∀ {booked more : List (Execution α × α)} {l m n : Ledger α},
    l.Books booked m → m.Books more n → l.Books (booked ++ more) n
  | [], _, _, _, _, rfl, h => h
  | _ :: _, _, _, _, _, ⟨next, happly, hcash, hbooks⟩, h =>
    ⟨next, happly, hcash, hbooks.append h⟩

/-- The cash told with an entry is that of the ledger on which the entries so far have
been booked. -/
theorem Books.replay : ∀ {front : List (Execution α × α)} {e : Execution α} {cash : α}
    {back : List (Execution α × α)} {l m : Ledger α}, l.Books (front ++ (e, cash) :: back) m →
      ∃ next, l.replay (front.map (·.1) ++ [e]) = .ok next ∧ next.cash = cash
  | [], e, cash, back, l, m, ⟨next, happly, hcash, _⟩ => by
    refine ⟨next, ?_, hcash⟩
    show (l.apply e).bind (fun l => l.replay []) = .ok next
    rw [happly]
    rfl
  | (first, _) :: front, e, cash, back, l, m, ⟨next, happly, _, hbooks⟩ => by
    obtain ⟨last, hreplay, hcash⟩ := hbooks.replay
    refine ⟨last, ?_, hcash⟩
    show (l.apply first).bind (fun l => l.replay (front.map (·.1) ++ [e])) = .ok last
    rw [happly]
    exact hreplay

end Ledger

namespace Broker

/-! ### Applying a step -/

/-- From `b` to `c` some executions were booked and some orders came to rest, and this is
what was entered. -/
structure Enters (b c : Broker σ α) (applied : List (Execution α × α))
    (resting : List (OrderId × Order α)) : Prop where
  books : b.account.ledger.Books applied c.account.ledger
  journal : c.journal = b.journal ++ TickTrace.itemEvents applied resting
  tradeLog : c.tradeLog = b.tradeLog ++ applied.map (·.1)
  insertedLastTick : c.insertedLastTick = b.insertedLastTick ++ resting.map (·.1)
  values : c.values = b.values
  finished : c.finished = b.finished

namespace Enters

theorem refl (b : Broker σ α) : b.Enters b [] [] where
  books := rfl
  journal := (List.append_nil _).symm
  tradeLog := (List.append_nil _).symm
  insertedLastTick := (List.append_nil _).symm
  values := rfl
  finished := rfl

theorem trans {b c d : Broker σ α} {applied more : List (Execution α × α)}
    {resting further : List (OrderId × Order α)} (h : b.Enters c applied resting)
    (h' : c.Enters d more further) (horder : resting = [] ∨ more = []) :
    b.Enters d (applied ++ more) (resting ++ further) where
  books := h.books.append h'.books
  journal := by
    rw [h'.journal, h.journal, List.append_assoc, TickTrace.itemEvents_append horder]
  tradeLog := by rw [h'.tradeLog, h.tradeLog, List.map_append, List.append_assoc]
  insertedLastTick := by
    rw [h'.insertedLastTick, h.insertedLastTick, List.map_append, List.append_assoc]
  values := h'.values.trans h.values
  finished := h'.finished.trans h.finished

end Enters

theorem takeExecution_enters {b c : Broker σ α} {e : Execution α}
    (h : b.takeExecution e = .ok c) : b.Enters c [(e, c.account.ledger.cash)] [] := by
  obtain ⟨a, ha, rfl⟩ := takeItem_ok (i := .execution e) h
  exact ⟨⟨a.ledger, Account.reconcile_ledger ha, rfl, rfl⟩, rfl, rfl, (List.append_nil _).symm,
    rfl, rfl⟩

theorem takePlacement_enters {b c : Broker σ α} {p : OrderId × Order α}
    (h : b.takePlacement p = .ok c) : b.Enters c [] [p] := by
  obtain ⟨a, ha, rfl⟩ := takeItem_ok (i := .placement p.1 p.2) h
  exact ⟨(Account.place_ledger ha).symm, rfl, (List.append_nil _).symm, rfl, rfl, rfl⟩

theorem feed_executions_enters : ∀ (es : List (Execution α)) (b : Broker σ α),
    ∃ applied, b.Enters (feed takeExecution b es).1 applied []
  | [], b => ⟨[], .refl b⟩
  | e :: es, b => by
    cases ht : b.takeExecution e with
    | error cause =>
      rw [feed_cons_error ht]
      exact ⟨[], .refl b⟩
    | ok c =>
      rw [feed_cons_ok ht]
      obtain ⟨applied, hrest⟩ := feed_executions_enters es c
      exact ⟨_, (takeExecution_enters ht).trans hrest (.inl rfl)⟩

theorem feed_placements_enters : ∀ (ps : List (OrderId × Order α)) (b : Broker σ α),
    ∃ resting, b.Enters (feed takePlacement b ps).1 [] resting
  | [], b => ⟨[], .refl b⟩
  | p :: ps, b => by
    cases ht : b.takePlacement p with
    | error cause =>
      rw [feed_cons_error ht]
      exact ⟨[], .refl b⟩
    | ok c =>
      rw [feed_cons_ok ht]
      obtain ⟨resting, hrest⟩ := feed_placements_enters ps c
      exact ⟨_, (takePlacement_enters ht).trans hrest (.inr rfl)⟩

/-- How a tick that leads from `b` to `c` ends: it fails and enters nothing, or it ends
the session, or it is completed with a value. -/
inductive Closes (b c : Broker σ α) :
    Except (BrokerFault α) (TickReport α) → List (Event α) → Prop
  | failed (fault : BrokerFault α) (hvalues : c.values = b.values)
      (hfinished : c.finished = b.finished) : b.Closes c (.error fault) []
  | ended (report : TickReport α) (hreport : report.finished = true)
      (hvalues : c.values = b.values) (hfinished : c.finished = true) :
    b.Closes c (.ok report) [.sessionFinished]
  | completed (report : TickReport α) (value : α) (hreport : report.finished = false)
      (hvalue : report.value = some value) (hvalues : c.values = b.values ++ [value])
      (hfinished : c.finished = b.finished) :
    b.Closes c (.ok report) [.tickCompleted report.now value]

theorem Closes.of_same {b b' c : Broker σ α} {outcome : Except (BrokerFault α) (TickReport α)}
    {closing : List (Event α)} (h : b.Closes c outcome closing) (hvalues : b.values = b'.values)
    (hfinished : b.finished = b'.finished) : b'.Closes c outcome closing := by
  cases h with
  | failed fault hv hf => exact .failed fault (hv.trans hvalues) (hf.trans hfinished)
  | ended report hreport hv hf => exact .ended report hreport (hv.trans hvalues) hf
  | completed report value hreport hvalue hv hf =>
    exact .completed report value hreport hvalue (hvalues ▸ hv) (hf.trans hfinished)

theorem conclude_closes (b : Broker σ α) (step : Step α) (report : TickReport α)
    (hreport : report.finished = false) : ∃ closing,
      b.Closes (b.conclude step report).2 (b.conclude step report).1 closing ∧
        (b.conclude step report).2.journal = b.journal ++ closing := by
  rcases b.conclude_cases step report with ⟨-, hc⟩ | ⟨-, symbol, -, hc⟩ | ⟨-, value, -, hc⟩
  · rw [hc]
    exact ⟨_, .ended _ rfl rfl rfl, rfl⟩
  · rw [hc]
    exact ⟨[], .failed _ rfl rfl, (List.append_nil _).symm⟩
  · rw [hc]
    exact ⟨_, .completed _ value hreport rfl rfl rfl, rfl⟩

/-- What a tick that leads from `b` to `c` makes of a step, and how it is shown. -/
structure Shows (b c : Broker σ α) (outcome : Except (BrokerFault α) (TickReport α))
    (applied : List (Execution α × α)) (resting : List (OrderId × Order α))
    (closing : List (Event α)) : Prop where
  books : b.account.ledger.Books applied c.account.ledger
  journal : c.journal = b.journal ++ (TickTrace.itemEvents applied resting ++ closing)
  tradeLog : c.tradeLog = b.tradeLog ++ applied.map (·.1)
  insertedLastTick : c.insertedLastTick = b.insertedLastTick ++ resting.map (·.1)
  closes : b.Closes c outcome closing

/-- The rest of a step that is held is not shown. -/
theorem Enters.shows {b c : Broker σ α} {applied : List (Execution α × α)}
    {resting : List (OrderId × Order α)} (h : b.Enters c applied resting)
    (fault : BrokerFault α) (held : Option (Step α)) :
    b.Shows { c with held := held } (.error fault) applied resting [] where
  books := h.books
  journal := by rw [List.append_nil]; exact h.journal
  tradeLog := h.tradeLog
  insertedLastTick := h.insertedLastTick
  closes := .failed fault h.values h.finished

theorem Enters.conclude {b c : Broker σ α} {applied : List (Execution α × α)}
    {resting : List (OrderId × Order α)} (h : b.Enters c applied resting) (step : Step α)
    (report : TickReport α) (hreport : report.finished = false) : ∃ closing,
      b.Shows (c.conclude step report).2 (c.conclude step report).1 applied resting closing := by
  obtain ⟨closing, hcloses, hjournal⟩ := c.conclude_closes step report hreport
  have hkept := c.conclude_keeps (fun b => (b.account, b.tradeLog, b.insertedLastTick))
    (fun _ _ _ _ _ _ _ => rfl) step report
  obtain ⟨haccount, hkept⟩ := Prod.mk.inj hkept
  obtain ⟨hlog, hinserted⟩ := Prod.mk.inj hkept
  refine ⟨closing, ?_, ?_, hlog.trans h.tradeLog, hinserted.trans h.insertedLastTick,
    hcloses.of_same h.values h.finished⟩
  · rw [haccount]
    exact h.books
  · rw [hjournal, h.journal, List.append_assoc]

/-- **A step is shown as it is applied:** its executions, the orders that come to rest,
and how it ended. -/
theorem applyStep_shows (b : Broker σ α) (step : Step α) (report : TickReport α)
    (hreport : report.finished = false) : ∃ applied resting closing,
      b.Shows (b.applyStep step report).2 (b.applyStep step report).1 applied resting closing := by
  obtain ⟨applied, hexecuted⟩ := feed_executions_enters step.executed b
  unfold applyStep
  rcases he : feed takeExecution b step.executed with ⟨c, _ | ⟨cause, rest⟩⟩
  · rw [he] at hexecuted
    obtain ⟨resting, hplaced⟩ := feed_placements_enters step.inserted c
    have hentered := hexecuted.trans hplaced (.inl rfl)
    rcases hp : feed takePlacement c step.inserted with ⟨d, _ | ⟨cause, rest⟩⟩
    · rw [hp] at hentered
      simp only [hp]
      obtain ⟨closing, hshows⟩ := hentered.conclude step { report with
        executed := step.executed, inserted := step.inserted.map (·.1) } hreport
      exact ⟨_, _, closing, hshows⟩
    · rw [hp] at hentered
      simp only [hp]
      exact ⟨_, _, [], hentered.shows _ _⟩
  · rw [he] at hexecuted
    exact ⟨applied, [], [], hexecuted.shows _ _⟩

section

variable [Service σ α]

/-! ### One tick -/

/-- A tick begins a new step: the broker is free for one, and the reply to it can be
applied. -/
def Begins (b : Broker σ α) : Prop :=
  b.finished = false ∧ b.held = none ∧ ∃ reply, b.delivery.1 = .ok reply ∧ ¬ reply.Defective

/-- The batches that the next tick asks the service to take. -/
def batches (b : Broker σ α) : List (List (Order α)) :=
  ((b.asking .tick).filterMap ServiceCall.submission?).map (·.orders)

/-- The rejections of the flush of the next tick. -/
def rejecting (b : Broker σ α) : List (Rejection α) :=
  (b.dispatch .tick).flatMap (·.rejected)

theorem begins_iff {b : Broker σ α} (hactive : b.finished = false) (hfree : b.held = none) :
    b.Begins ↔ ∃ begun, b.due.1 = .ok begun := by
  constructor
  · rintro ⟨-, -, reply, hreply, hgood⟩
    have hdelivery : b.delivery = (.ok reply, b.delivery.2) := Prod.ext hreply rfl
    rw [due_of_delivery hactive hfree hdelivery]
    rcases hcheck : reply.check with defect | step
    · exact absurd (reply.check_error_iff.mp ⟨defect, hcheck⟩) hgood
    · exact ⟨_, rfl⟩
  · rintro ⟨⟨step, report⟩, hd⟩
    have hdue : b.due = (.ok (step, report), b.due.2) := Prod.ext hd rfl
    rcases due_ok hdue with ⟨-, ⟨hheld, -⟩ | ⟨-, -, reply, s, hdelivery, hcheck, -⟩⟩
    · rw [hfree] at hheld
      cases hheld
    · refine ⟨hactive, hfree, reply, by rw [hdelivery], fun hbad => ?_⟩
      obtain ⟨defect, herror⟩ := reply.check_error_iff.mpr hbad
      rw [hcheck] at herror
      cases herror

theorem Begins.fresh {b : Broker σ α} (h : b.Begins) : (b.finished || b.held.isSome) = false :=
  fresh_iff.mpr ⟨h.1, h.2.1⟩

/-- The trace `t` is what the next tick enters in the journal, and each of its stages
tells what the tick does. -/
structure Traces (b : Broker σ α) (t : TickTrace α) : Prop where
  journal : b.tick.2.journal = b.journal ++ t.events
  rejected : t.rejected = b.rejecting
  batches : t.batches = b.batches
  single : t.batches.length ≤ 1
  books : b.account.ledger.Books t.applied b.tick.2.account.ledger
  tradeLog : b.tick.2.tradeLog = b.tradeLog ++ t.applied.map (·.1)
  begun : b.Begins → b.tick.2.insertedLastTick = t.resting.map (·.1)
  continued : ¬ b.Begins →
    b.tick.2.insertedLastTick = b.insertedLastTick ++ t.resting.map (·.1)
  closes : b.Closes b.tick.2 b.tick.1 t.closing

theorem traces_finished {b : Broker σ α} (hfinished : b.finished = true) : b.Traces .blank := by
  have htick := tick_finished hfinished
  have hstale : (b.finished || b.held.isSome) = true := by
    rw [hfinished]
    rfl
  have hnone : ¬ b.Begins := fun h => by cases h.fresh.symm.trans hstale
  constructor
  · rw [htick]
    exact (List.append_nil _).symm
  · unfold rejecting dispatch
    rw [if_pos hstale]
    rfl
  · unfold Broker.batches
    rw [asking_stale hstale]
    rfl
  · exact Nat.zero_le 1
  · rw [htick]
    rfl
  · rw [htick]
    exact (List.append_nil _).symm
  · exact fun h => absurd h hnone
  · intro _
    rw [htick]
    exact (List.append_nil _).symm
  · rw [htick]
    exact .failed _ rfl rfl

/-- What is left of a step is shown without a flush. -/
theorem traces_resumed {b : Broker σ α} {step : Step α} (hactive : b.finished = false)
    (hheld : b.held = some step) : ∃ t, b.Traces t := by
  have hstale : (b.finished || b.held.isSome) = true := by
    rw [hheld]
    exact Bool.or_true _
  have hnone : ¬ b.Begins := fun h => by cases h.fresh.symm.trans hstale
  have htick : b.tick = ({ b with held := none } : Broker σ α).applyStep step blankReport := by
    rw [tick_eq, due_resumed hactive hheld]
  obtain ⟨applied, resting, closing, hshows⟩ :=
    applyStep_shows ({ b with held := none } : Broker σ α) step blankReport rfl
  rw [← htick] at hshows
  refine ⟨⟨[], [], applied, resting, closing⟩, ?_⟩
  constructor
  · exact hshows.journal
  · unfold rejecting dispatch
    rw [if_pos hstale]
    rfl
  · unfold Broker.batches
    rw [asking_stale hstale]
    rfl
  · exact Nat.zero_le 1
  · exact hshows.books
  · exact hshows.tradeLog
  · exact fun h => absurd h hnone
  · exact fun _ => hshows.insertedLastTick
  · exact hshows.closes.of_same rfl rfl

/-- A flush shows its rejections and then the batch that the service is asked to take. -/
theorem flushEvents_eq {b : Broker σ α} (hactive : b.finished = false) (hfree : b.held = none) :
    b.flushEvents = b.rejecting.map .orderRejected ++ b.batches.map .ordersSubmitted ∧
      b.batches.length ≤ 1 := by
  have hrejected : b.rejecting = b.sifted.rejected := by
    unfold rejecting dispatch
    rw [if_neg (by rw [fresh_iff.mpr ⟨hactive, hfree⟩]; exact Bool.false_ne_true)]
    show b.dispatched.rejected ++ [] = _
    rw [List.append_nil]
    exact (Ledger.sift_rejected _ _).symm
  rw [hrejected]
  unfold flushEvents Broker.batches
  rw [sifted_accepted]
  rcases asking_fresh hactive hfree with ⟨hnone, -, hasking⟩ | ⟨hsome, -, hasking⟩ |
    ⟨hsome, fault, -, hasking⟩
  · rw [hasking, hnone]
    exact ⟨rfl, Nat.zero_le 1⟩
  · rw [hasking, if_neg (by simpa using hsome)]
    exact ⟨rfl, Nat.le_refl 1⟩
  · rw [hasking, if_neg (by simpa using hsome)]
    exact ⟨rfl, Nat.le_refl 1⟩

/-- A tick that is not given a step has shown its flush. -/
theorem traces_fresh {b : Broker σ α} (hactive : b.finished = false) (hfree : b.held = none) :
    ∃ t, b.Traces t := by
  obtain ⟨hflush, hsingle⟩ := flushEvents_eq hactive hfree
  rcases hd : b.due with ⟨fault | ⟨step, report⟩, c⟩
  · have htick : b.tick = (.error fault, c) := by
      rw [tick_eq, hd]
    rcases due_error hd with ⟨hfinished, -, -⟩ | ⟨-, -, s, rfl, hcause⟩
    · rw [hactive] at hfinished
      cases hfinished
    · have hnone : ¬ b.Begins := fun h => by
        obtain ⟨begun, hok⟩ := (begins_iff hactive hfree).mp h
        rw [hd] at hok
        cases hok
      refine ⟨⟨b.rejecting, b.batches, [], [], []⟩, ?_⟩
      constructor
      · rw [htick]
        show b.journal ++ b.flushEvents = _
        rw [hflush]
        unfold TickTrace.events
        simp only [TickTrace.itemEvents, List.map_nil, List.append_nil]
      · rfl
      · rfl
      · exact hsingle
      · rw [htick]
        rfl
      · rw [htick]
        exact (List.append_nil _).symm
      · exact fun h => absurd h hnone
      · intro _
        rw [htick]
        exact (List.append_nil _).symm
      · rw [htick]
        exact .failed _ rfl rfl
  · rcases due_ok hd with ⟨-, ⟨hheld, -, -⟩ | ⟨-, rfl, reply, s, hdelivery, hcheck, rfl⟩⟩
    · rw [hfree] at hheld
      cases hheld
    · have htick := tick_of_delivery hactive hfree hdelivery hcheck
      have hbegins : b.Begins := (begins_iff hactive hfree).mpr ⟨_, congrArg Prod.fst hd⟩
      obtain ⟨applied, resting, closing, hshows⟩ :=
        applyStep_shows (b.begun s) step b.sendReport rfl
      rw [← htick] at hshows
      refine ⟨⟨b.rejecting, b.batches, applied, resting, closing⟩, ?_⟩
      constructor
      · rw [hshows.journal]
        show b.journal ++ b.flushEvents ++ _ = _
        rw [hflush]
        unfold TickTrace.events
        simp only [List.append_assoc]
      · rfl
      · rfl
      · exact hsingle
      · exact hshows.books
      · exact hshows.tradeLog
      · exact fun _ => hshows.insertedLastTick
      · exact fun h => absurd hbegins h
      · exact hshows.closes.of_same rfl rfl

/-- **Every tick has a trace.** -/
theorem tick_trace (b : Broker σ α) : ∃ t, b.Traces t := by
  cases hf : b.finished with
  | true => exact ⟨.blank, traces_finished hf⟩
  | false =>
    cases hh : b.held with
    | some step => exact traces_resumed hf hh
    | none => exact traces_fresh hf hh

end

end Broker
end Brokerage
