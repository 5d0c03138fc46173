/-
# The journal of a run

The journal begins with the start of the session, grows by the trace of each tick and by
nothing else, and ends with the end of the session if it comes to that. It agrees with
the state of the broker (`Journaled`): the results in it are the trade log, each with the
cash that the log up to it has left, the values in it are the values that were entered,
and the orders that came to rest since a step was last begun are those that are noted as
inserted (`Broker.resting_since`).

Key definitions: `Broker.results`, `restingIn`, `Journaled`, `Broker.Idle`.
Key theorems: `Broker.operate_enters`, `Journaled.operated`, `Broker.last_begun`,
`Broker.idle_resting`, `Broker.resting_since`, `Broker.journal_tells_run`.
-/
import Brokerage.Proofs.TickTrace

namespace Brokerage

variable {σ α : Type} [Amount α]

/-- The numbers of the orders that came to rest. -/
def restingIn (events : List (Event α)) : List OrderId :=
  (events.filterMap Event.resting?).map (·.1)

theorem restingIn_append (events more : List (Event α)) :
    restingIn (events ++ more) = restingIn events ++ restingIn more := by
  unfold restingIn
  rw [List.filterMap_append, List.map_append]

namespace TickTrace

/-- What is seen in the trace of a tick is seen in one of its stages. -/
theorem filterMap_events {γ : Type} (p : Event α → Option γ) (t : TickTrace α) :
    t.events.filterMap p = t.rejected.filterMap (p ∘ .orderRejected) ++
      t.batches.filterMap (p ∘ .ordersSubmitted) ++
      t.applied.filterMap (fun entry => p (.resultApplied entry.1 entry.2)) ++
      t.resting.filterMap (fun entry => p (.orderResting entry.1 entry.2)) ++
      t.closing.filterMap p := by
  unfold events itemEvents
  simp only [List.filterMap_append, List.filterMap_map, List.append_assoc]
  rfl

theorem values (t : TickTrace α) :
    t.events.filterMap Event.value? = t.closing.filterMap Event.value? := by
  rw [filterMap_events]
  simp [Event.value?, Function.comp_def]

/-- Before the tick ends, the end of the session is not shown. -/
theorem events_closing (t : TickTrace α) : ∃ front, t.events = front ++ t.closing ∧
    ∀ event ∈ front, event.isEnd = false := by
  refine ⟨_, rfl, fun event hevent => ?_⟩
  unfold itemEvents at hevent
  simp only [List.mem_append, List.mem_map] at hevent
  rcases hevent with (⟨_, -, rfl⟩ | ⟨_, -, rfl⟩) | ⟨_, -, rfl⟩ | ⟨_, -, rfl⟩ <;> rfl

end TickTrace

namespace Broker

/-- The executions in the journal, each with the cash reported after it. -/
def results (b : Broker σ α) : List (Execution α × α) :=
  b.journal.filterMap Event.result?

namespace Closes

variable {b c : Broker σ α} {outcome : Except (BrokerFault α) (TickReport α)}
  {closing : List (Event α)}

theorem results (h : b.Closes c outcome closing) : closing.filterMap Event.result? = [] := by
  cases h <;> rfl

theorem resting (h : b.Closes c outcome closing) : closing.filterMap Event.resting? = [] := by
  cases h <;> rfl

theorem items (h : b.Closes c outcome closing) : closing.filterMap Event.item? = [] := by
  cases h <;> rfl

theorem values (h : b.Closes c outcome closing) :
    c.values = b.values ++ closing.filterMap Event.value? := by
  cases h with
  | failed fault hvalues | ended report hreport hvalues =>
    rw [hvalues]
    exact (List.append_nil _).symm
  | completed report value hreport hvalue hvalues => exact hvalues

theorem not_start (h : b.Closes c outcome closing) : ∀ event ∈ closing, event.isStart = false := by
  cases h <;> simp [Event.isStart]

/-- The session ends with its last event, or it does not end. -/
theorem finished (h : b.Closes c outcome closing) :
    (closing = [.sessionFinished] ∧ c.finished = true) ∨
      ((∀ event ∈ closing, event.isEnd = false) ∧ c.finished = b.finished) := by
  cases h with
  | failed fault hvalues hfinished => exact .inr ⟨fun _ hmem => (by cases hmem), hfinished⟩
  | ended report hreport hvalues hfinished => exact .inl ⟨rfl, hfinished⟩
  | completed report value hreport hvalue hvalues hfinished =>
    exact .inr ⟨fun event hmem => by rw [List.mem_singleton.mp hmem]; rfl, hfinished⟩

end Closes

variable [Service σ α]

namespace Traces

variable {b : Broker σ α} {t : TickTrace α}

theorem results (h : b.Traces t) : b.tick.2.results = b.results ++ t.applied := by
  unfold Broker.results
  rw [h.journal, List.filterMap_append, TickTrace.filterMap_events, h.closes.results]
  simp [Event.result?, Function.comp_def]

theorem resting (h : b.Traces t) : restingIn t.events = t.resting.map (·.1) := by
  unfold restingIn
  rw [TickTrace.filterMap_events, h.closes.resting]
  simp [Event.resting?, Function.comp_def]

/-- The items that a tick applies are those that it shows. -/
theorem items (h : b.Traces t) : b.applying .tick =
    (t.applied.map (·.1)).map .execution ++
      t.resting.map fun entry => .placement entry.1 entry.2 := by
  have hhistory : b.tick.2.history = b.history ++ b.applying .tick := b.perform_history .tick
  have hshown : b.tick.2.history = b.history ++ t.events.filterMap Event.item? := by
    unfold history
    rw [h.journal, List.filterMap_append]
  rw [List.append_cancel_left (hhistory.symm.trans hshown), TickTrace.filterMap_events,
    h.closes.items]
  simp [Event.item?, Function.comp_def]

theorem executions (h : b.Traces t) :
    executionsIn (b.applying .tick) = t.applied.map (·.1) := by
  rw [h.items, executionsIn_append, executionsIn_executions, executionsIn_placements,
    List.append_nil]

theorem placements (h : b.Traces t) : placementsIn (b.applying .tick) = t.resting := by
  rw [h.items, placementsIn_append, placementsIn_executions, placementsIn_placements,
    List.nil_append]

theorem not_start (h : b.Traces t) : ∀ event ∈ t.events, event.isStart = false := by
  intro event hevent
  unfold TickTrace.events TickTrace.itemEvents at hevent
  simp only [List.mem_append, List.mem_map] at hevent
  rcases hevent with ((⟨_, -, rfl⟩ | ⟨_, -, rfl⟩) | ⟨_, -, rfl⟩ | ⟨_, -, rfl⟩) | hclosing
  · rfl
  · rfl
  · rfl
  · rfl
  · exact h.closes.not_start event hclosing

end Traces

/-! ### What the journal keeps -/

/-- An operation that is not a tick enters nothing. -/
theorem operate_enters (b : Broker σ α) : ∀ {op : Operation σ α}, op ≠ .call .tick →
    b.Enters (b.operate op) [] [] := by
  have hserved : ∀ s, b.Enters { b with service := s } [] [] := fun s =>
    ⟨rfl, (List.append_nil _).symm, (List.append_nil _).symm, (List.append_nil _).symm, rfl, rfl⟩
  have hask : ∀ {β : Type} (question : σ → Except ServiceFault β × σ),
      b.Enters (b.ask question).2 [] [] := fun question => by
    rw [b.ask_service question]
    exact hserved _
  intro op hop
  rcases op with (order | _) | _ | _ | _ | change
  · show b.Enters (b.insert order).2 [] []
    rcases b.insert_eq order with h | h
    · rw [h]
      exact .refl b
    · rw [h]
      exact ⟨rfl, (List.append_nil _).symm, (List.append_nil _).symm, (List.append_nil _).symm,
        rfl, rfl⟩
  · exact absurd rfl hop
  · exact hask (Service.sessionInfo b.session)
  · exact hask Service.datasetSpan
  · exact hask (Service.clock b.session)
  · exact hserved _

end Broker

/-- The journal begins with the start of the session and tells what the broker has booked
upon `cash`, logged and entered, and whether the session is finished. -/
structure Journaled (cash : α) (b : Broker σ α) : Prop where
  start : ∃ now rest, b.journal = .sessionStarted now :: rest ∧
    ∀ event ∈ rest, event.isStart = false
  books : (Ledger.ofCash cash).Books b.results b.account.ledger
  log : b.results.map (·.1) = b.tradeLog
  values : b.journal.filterMap Event.value? = b.values
  ending : (b.finished = true ∧ ∃ front, b.journal = front ++ [.sessionFinished] ∧
      ∀ event ∈ front, event.isEnd = false) ∨
    (b.finished = false ∧ ∀ event ∈ b.journal, event.isEnd = false)

namespace Journaled

variable {cash : α} {b c : Broker σ α}

/-- What enters nothing keeps the journal in agreement. -/
theorem kept (hb : Journaled cash b) (h : b.Enters c [] []) : Journaled cash c := by
  have hjournal : c.journal = b.journal := h.journal.trans (List.append_nil _)
  have hresults : c.results = b.results := congrArg (·.filterMap Event.result?) hjournal
  have hledger : b.account.ledger = c.account.ledger := h.books
  constructor
  · rw [hjournal]
    exact hb.start
  · rw [hresults, ← hledger]
    exact hb.books
  · rw [hresults, hb.log]
    exact (h.tradeLog.trans (List.append_nil _)).symm
  · rw [hjournal, hb.values, h.values]
  · rw [hjournal, h.finished]
    exact hb.ending

variable [Service σ α]

/-- **A tick keeps the journal in agreement.** -/
theorem tick (hb : Journaled cash b) : Journaled cash b.tick.2 := by
  obtain ⟨t, ht⟩ := b.tick_trace
  constructor
  · obtain ⟨now, rest, hstart, hrest⟩ := hb.start
    refine ⟨now, rest ++ t.events, by rw [ht.journal, hstart]; rfl, fun event hevent => ?_⟩
    rcases List.mem_append.mp hevent with hold | hnew
    · exact hrest event hold
    · exact ht.not_start event hnew
  · rw [ht.results]
    exact hb.books.append ht.books
  · rw [ht.results, ht.tradeLog, List.map_append, hb.log]
  · rw [ht.journal, List.filterMap_append, hb.values, t.values, ht.closes.values]
  · rcases hb.ending with hdone | ⟨hactive, hopen⟩
    · rw [Broker.tick_finished hdone.1]
      exact .inl hdone
    · obtain ⟨front, hevents, hfront⟩ := t.events_closing
      have hbefore : ∀ event ∈ b.journal ++ front, event.isEnd = false := by
        intro event hevent
        rcases List.mem_append.mp hevent with hold | hnew
        · exact hopen event hold
        · exact hfront event hnew
      rw [ht.journal, hevents, ← List.append_assoc]
      rcases ht.closes.finished with ⟨hclosing, hfinished⟩ | ⟨hclosing, hfinished⟩
      · rw [hclosing]
        exact .inl ⟨hfinished, _, rfl, hbefore⟩
      · refine .inr ⟨hfinished.trans hactive, fun event hevent => ?_⟩
        rcases List.mem_append.mp hevent with hold | hnew
        · exact hbefore event hold
        · exact hclosing event hnew

theorem operate (hb : Journaled cash b) (op : Operation σ α) : Journaled cash (b.operate op) := by
  by_cases hop : op = .call .tick
  · rw [hop]
    exact hb.tick
  · exact hb.kept (b.operate_enters hop)

/-- **In every state of a run the journal is in agreement.** -/
theorem operated : ∀ (ops : List (Operation σ α)) {b : Broker σ α}, Journaled cash b →
    Journaled cash (b.operated ops)
  | [], _, hb => hb
  | op :: ops, _, hb => operated ops (hb.operate op)

/-- A session starts in agreement. -/
theorem connect {setup : Setup α} {service : σ} (h : Broker.connect setup service = .ok b) :
    ∃ cash, setup.cash = some cash ∧ Journaled cash b := by
  obtain ⟨cash, hcash, -, haccount, hlog, -, hactive, hvalues, -, now, hjournal⟩ :=
    Broker.connect_ok h
  have hresults : b.results = [] := by
    unfold Broker.results
    rw [hjournal]
    rfl
  refine ⟨cash, hcash, ⟨now, [], hjournal, fun _ hmem => (by cases hmem)⟩, ?_, ?_, ?_, ?_⟩
  · rw [hresults, haccount]
    rfl
  · rw [hresults, hlog]
    rfl
  · rw [hjournal, hvalues]
    rfl
  · refine .inr ⟨hactive, fun event hevent => ?_⟩
    rw [hjournal] at hevent
    rw [List.mem_singleton.mp hevent]
    rfl

end Journaled

namespace Broker

variable [Service σ α]

/-- The batches that the next tick asks the service to take are those that a tape of it
has. -/
theorem batches_taped (b : Broker σ α) :
    let taped : Broker (Taped σ α) α := b.onto ⟨b.service, []⟩
    b.batches = taped.tick.2.service.submissions.map (·.orders) := by
  intro taped
  have htape : taped.tick.2.service.tape = taped.service.tape ++ taped.asking .tick :=
    taped.perform_tape .tick
  unfold Taped.submissions
  rw [htape, show taped.service.tape = [] from rfl, List.nil_append, ← asking_untaped]
  rfl

/-! ### What came to rest since a step was begun -/

/-- None of the operations is a tick that begins a new step. -/
def Idle : Broker σ α → List (Operation σ α) → Prop
  | _, [] => True
  | b, op :: ops => (op = .call .tick → ¬ b.Begins) ∧ (b.operate op).Idle ops

/-- A run is idle, or there is a last tick of it that begins a new step. -/
theorem last_begun : ∀ (ops : List (Operation σ α)) (b : Broker σ α), b.Idle ops ∨
    ∃ before since, ops = before ++ .call .tick :: since ∧ (b.operated before).Begins ∧
      (b.operated before).tick.2.Idle since
  | [], _ => .inl trivial
  | op :: ops, b => by
    rcases last_begun ops (b.operate op) with hidle | ⟨before, since, rfl, hbegins, hidle⟩
    · by_cases hop : op = .call .tick ∧ b.Begins
      · obtain ⟨rfl, hbegins⟩ := hop
        exact .inr ⟨[], ops, rfl, hbegins, hidle⟩
      · exact .inl ⟨fun htick hbegins => hop ⟨htick, hbegins⟩, hidle⟩
    · exact .inr ⟨op :: before, since, rfl, hbegins, hidle⟩

/-- While no step is begun, the numbers that come to rest are added to those noted. -/
theorem idle_resting : ∀ (ops : List (Operation σ α)) {b : Broker σ α}, b.Idle ops → ∃ events,
    (b.operated ops).journal = b.journal ++ events ∧
      (b.operated ops).insertedLastTick = b.insertedLastTick ++ restingIn events
  | [], b, _ => ⟨[], (List.append_nil _).symm, (List.append_nil _).symm⟩
  | op :: ops, b, ⟨hop, hidle⟩ => by
    obtain ⟨later, hjournal, hinserted⟩ := idle_resting ops hidle
    have hfirst : ∃ events, (b.operate op).journal = b.journal ++ events ∧
        (b.operate op).insertedLastTick = b.insertedLastTick ++ restingIn events := by
      by_cases htick : op = .call .tick
      · obtain ⟨t, ht⟩ := b.tick_trace
        refine ⟨t.events, ?_, ?_⟩
        · rw [htick]
          exact ht.journal
        · rw [htick, ht.resting]
          exact ht.continued (hop htick)
      · have hkept := b.operate_enters htick
        exact ⟨[], hkept.journal, hkept.insertedLastTick⟩
    obtain ⟨events, hjournal', hinserted'⟩ := hfirst
    refine ⟨events ++ later, ?_, ?_⟩
    · rw [← List.append_assoc, ← hjournal']
      exact hjournal
    · rw [restingIn_append, ← List.append_assoc, ← hinserted']
      exact hinserted

/-- **The noted numbers are those that came to rest since a step was last begun,** or all
of them if none has been. -/
theorem resting_since {b : Broker σ α} (hnone : b.insertedLastTick = [])
    (hstart : restingIn b.journal = []) (ops : List (Operation σ α)) :
    (b.Idle ops ∧ (b.operated ops).insertedLastTick = restingIn (b.operated ops).journal) ∨
      ∃ before since, ops = before ++ .call .tick :: since ∧ (b.operated before).Begins ∧
        (b.operated before).tick.2.Idle since ∧ (b.operated ops).insertedLastTick =
          restingIn ((b.operated ops).journal.drop (b.operated before).journal.length) := by
  rcases last_begun ops b with hidle | ⟨before, since, rfl, hbegins, hidle⟩
  · obtain ⟨events, hjournal, hinserted⟩ := idle_resting ops hidle
    exact .inl ⟨hidle, by rw [hinserted, hjournal, restingIn_append, hnone, hstart]⟩
  · refine .inr ⟨before, since, rfl, hbegins, hidle, ?_⟩
    obtain ⟨t, ht⟩ := (b.operated before).tick_trace
    obtain ⟨events, hjournal, hinserted⟩ := idle_resting since hidle
    have hafter : b.operated (before ++ .call .tick :: since) =
        (b.operated before).tick.2.operated since := List.foldl_append
    rw [hafter, hjournal, hinserted, ht.begun hbegins, ht.journal, List.append_assoc,
      List.drop_left, restingIn_append, ht.resting]

/-- **The journal tells the run.** In every state that operations lead to:

* the start of the session is shown first and once;
* no operation but a tick adds to the journal, and a tick adds its trace: one event for
  each rejection of the flush, the batch that the service was asked to take if there was
  one, one event for each execution that is applied, one for each order that comes to rest,
  and then the end of the session or the completed tick if it does not fail; the batch is
  the one that a tape of the service has;
* the end of the session is shown last and once if the session is finished, and else not;
* the results are the trade log, and each is shown with the cash of the ledger upon which
  the log up to it has been booked;
* the values of the completed ticks are the values that were entered;
* the orders that came to rest since a tick last began a new step are those noted. -/
theorem journal_tells_run {setup : Setup α} {service : σ} {b : Broker σ α}
    (h : connect setup service = .ok b) (ops : List (Operation σ α)) :
    let c := b.operated ops
    (∃ now rest, c.journal = .sessionStarted now :: rest ∧
      ∀ event ∈ rest, event.isStart = false) ∧
    (∀ op, op ≠ .call .tick → (c.operate op).journal = c.journal) ∧
    (∃ t, c.Traces t ∧ executionsIn (c.applying .tick) = t.applied.map (·.1) ∧
      placementsIn (c.applying .tick) = t.resting ∧
      let taped : Broker (Taped σ α) α := c.onto ⟨c.service, []⟩
      taped.tick.2.untaped = c.tick.2 ∧
        t.batches = taped.tick.2.service.submissions.map (·.orders)) ∧
    ((c.finished = true ∧ ∃ front, c.journal = front ++ [.sessionFinished] ∧
        ∀ event ∈ front, event.isEnd = false) ∨
      (c.finished = false ∧ ∀ event ∈ c.journal, event.isEnd = false)) ∧
    c.results.map (·.1) = c.tradeLog ∧
    (∃ cash, setup.cash = some cash ∧ ∀ front e told back,
      c.results = front ++ (e, told) :: back → ∃ l,
        (Ledger.ofCash cash).replay (front.map (·.1) ++ [e]) = .ok l ∧ l.cash = told) ∧
    c.journal.filterMap Event.value? = c.values ∧
    ((b.Idle ops ∧ c.insertedLastTick = restingIn c.journal) ∨
      ∃ before since, ops = before ++ .call .tick :: since ∧ (b.operated before).Begins ∧
        (b.operated before).tick.2.Idle since ∧
        c.insertedLastTick = restingIn (c.journal.drop (b.operated before).journal.length)) := by
  intro c
  obtain ⟨cash, hcash, hb⟩ := Journaled.connect h
  have hc : Journaled cash c := hb.operated ops
  obtain ⟨-, -, -, -, -, -, -, -, hnone, now, hjournal⟩ := connect_ok h
  obtain ⟨t, ht⟩ := c.tick_trace
  refine ⟨hc.start, fun op hop => ?_, ⟨t, ht, ht.executions, ht.placements, ?_, ?_⟩, hc.ending,
    hc.log, ⟨cash, hcash, fun front e told back hresults => ?_⟩, hc.values,
    resting_since hnone (by rw [hjournal]; rfl) ops⟩
  · exact (c.operate_enters hop).journal.trans (List.append_nil _)
  · exact (congrArg Prod.snd (tick_untaped _)).symm
  · exact ht.batches.trans c.batches_taped
  · have hbooks := hc.books
    rw [hresults] at hbooks
    exact hbooks.replay

/-- The sample session is begun by the first tick, and two more go on with its step. A buy
and a sell are booked, one order comes to rest, and the third tick is completed. -/
theorem sample_journal_tells_run :
    let ops : List (Operation (ScriptedService Rat) Rat) :=
      [.call .tick, .call .tick, .call .tick]
    let c := sampleBroker.operated ops
    c.results.map (fun entry => (entry.1.order, entry.2)) = [(⟨1⟩, 600), (⟨3⟩, 700)] ∧
    restingIn c.journal = [⟨7⟩] ∧ c.values = [1000] ∧
    c.results.map (·.1) = c.tradeLog ∧ c.journal.filterMap Event.value? = c.values ∧
    (∃ before since, ops = before ++ .call .tick :: since ∧
      (sampleBroker.operated before).tick.2.Idle since ∧ c.insertedLastTick =
        restingIn (c.journal.drop (sampleBroker.operated before).journal.length)) := by
  intro ops c
  obtain ⟨-, -, -, -, hlog, -, hvalues, hresting⟩ := journal_tells_run connect_sample ops
  refine ⟨by decide +kernel, by decide +kernel, by decide +kernel, hlog, hvalues, ?_⟩
  rcases hresting with ⟨hidle, -⟩ | ⟨before, since, hops, -, hidle, hinserted⟩
  · -- The first tick does begin a step.
    refine absurd ?_ (hidle.1 rfl)
    exact (begins_iff rfl rfl).mpr ⟨(sampleStep, blankReport), rfl⟩
  · exact ⟨before, since, hops, hidle, hinserted⟩

end Broker
end Brokerage
