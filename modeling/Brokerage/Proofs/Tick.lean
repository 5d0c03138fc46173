/-
# What a tick does

A tick first procures a step: the one that was held, or a new one, for which the
pending orders are sent and a reply is fetched (`Broker.due`). If it gets one, it
applies it (`Broker.tick_eq`). Procuring touches the pending orders, the service
and the journal and nothing that a step changes, and it fails before anything is
applied (`Broker.due_error`); applying makes no call to the service.

Key definitions: `Broker.sifted`, `Broker.accepted`, `Broker.sent`,
`Broker.submission`, `Broker.delivery`, `Broker.due`, `Broker.begun`,
`Broker.adopt`, `TickReport.ending`.
Key theorems: `Broker.tick_eq`, `Broker.due_ok`, `Broker.due_error`,
`Broker.due_fresh`, `Broker.tick_of_delivery`, `Broker.applyStep_cases`,
`Broker.applyStep_ok`, `Broker.conclude_cases`.
-/
import Brokerage.Proofs.Item

namespace Brokerage

variable {σ α : Type} [Amount α]

/-- When a tick ended, the value it entered and whether it was the last. -/
def TickReport.ending (report : TickReport α) : Option Timestamp × Option α × Bool :=
  (report.now, report.value, report.finished)

namespace Broker

/-! ### Procuring a step -/

/-- The pending orders, sorted by the ledger as it stands. -/
def sifted (b : Broker σ α) : Flush α :=
  b.account.ledger.sift b.account.blotter.pending

/-- The pending orders to which the ledger does not object. -/
def accepted (b : Broker σ α) : List (Order α) :=
  b.account.blotter.pending.filter fun order => (b.account.ledger.refusal? order).isNone

theorem sifted_accepted (b : Broker σ α) : b.sifted.accepted = b.accepted :=
  Ledger.sift_accepted _ _

/-- What the journal shows of a flush. -/
def flushEvents (b : Broker σ α) : List (Event α) :=
  b.sifted.rejected.map .orderRejected ++
    if b.sifted.accepted.isEmpty then [] else [.ordersSubmitted b.sifted.accepted]

/-- The broker with its pending orders taken out. -/
def sent (b : Broker σ α) : Broker σ α :=
  { b with account := b.account.buffering [], journal := b.journal ++ b.flushEvents }

/-- How the service takes the accepted orders; it is not asked if there are none. -/
def submission [Service σ α] (b : Broker σ α) : Except ServiceFault Unit × σ :=
  if b.sifted.accepted.isEmpty then (.ok (), b.service)
  else Service.submit b.session b.sifted.accepted b.service

/-- What the service tells of the next step, once it has taken the orders. -/
def delivery [Service σ α] (b : Broker σ α) : Except ServiceFault (StepReply α) × σ :=
  match b.submission with
  | (.error fault, s) => (.error fault, s)
  | (.ok (), s) => Service.nextStep b.session s

/-- The report of a tick that has sent its orders. -/
def sendReport (b : Broker σ α) : TickReport α :=
  { blankReport with submitted := b.sifted.accepted.length, rejected := b.sifted.rejected }

/-- The step that a tick is to apply, with the report so far, or why there is
none. -/
def due [Service σ α] (b : Broker σ α) :
    Except (BrokerFault α) (Step α × TickReport α) × Broker σ α :=
  if b.finished then (.error (.finished .tick), b)
  else match b.held with
    | some step => (.ok (step, blankReport), { b with held := none })
    | none =>
      match b.submission with
      | (.error fault, s) =>
        (.error (.ofService fault b.sifted.accepted), { b.sent with service := s })
      | (.ok (), s) =>
        match Service.nextStep b.session s with
        | (.error fault, s) => (.error (.ofService fault []), { b.sent with service := s })
        | (.ok reply, s) =>
          match reply.check with
          | .error defect =>
            (.error (.protocol (.malformed defect)), { b.sent with service := s })
          | .ok step =>
            (.ok (step, b.sendReport), { b.sent with service := s, insertedLastTick := [] })

theorem due_finished [Service σ α] {b : Broker σ α} (hfinished : b.finished = true) :
    b.due = (.error (.finished .tick), b) := by
  unfold due
  rw [hfinished]
  rfl

theorem due_resumed [Service σ α] {b : Broker σ α} {step : Step α} (hactive : b.finished = false)
    (hheld : b.held = some step) : b.due = (.ok (step, blankReport), { b with held := none }) := by
  unfold due
  rw [hactive, hheld]
  rfl

/-- Sends the pending orders, and fetches a step unless that fails. -/
theorem exchange_eq [Service σ α] (b : Broker σ α) :
    b.exchange = match b.submission with
      | (.error fault, s) =>
        (.error (.ofService fault b.sifted.accepted), { b.sent with service := s })
      | (.ok (), s) => fetch { b.sent with service := s } b.sendReport := by
  have hexchange : b.exchange =
      let c := note { b with account := b.account.buffering [] }
        (b.sifted.rejected.map .orderRejected)
      if b.sifted.accepted.isEmpty then c.fetch b.sendReport
      else match Service.submit b.session b.sifted.accepted b.service with
        | (.error fault, s) =>
          (.error (.ofService fault b.sifted.accepted),
            { c.note [.ordersSubmitted b.sifted.accepted] with service := s })
        | (.ok (), s) =>
          fetch { c.note [.ordersSubmitted b.sifted.accepted] with service := s } b.sendReport :=
    rfl
  rw [hexchange]
  unfold submission sent flushEvents note
  cases b.sifted.accepted.isEmpty with
  | true => simp only [if_true, List.append_nil]
  | false => simp only [Bool.false_eq_true, if_false, List.append_assoc]

theorem fetch_eq [Service σ α] (b : Broker σ α) (report : TickReport α) :
    b.fetch report = match Service.nextStep b.session b.service with
      | (.error fault, s) => (.error (.ofService fault []), { b with service := s })
      | (.ok reply, s) =>
        match reply.check with
        | .error defect => (.error (.protocol (.malformed defect)), { b with service := s })
        | .ok step => applyStep { b with service := s, insertedLastTick := [] } step report := rfl

/-- **A tick procures a step and applies it.** -/
theorem tick_eq [Service σ α] (b : Broker σ α) :
    b.tick = match b.due with
      | (.error fault, c) => (.error fault, c)
      | (.ok (step, report), c) => c.applyStep step report := by
  unfold tick due
  cases b.finished with
  | true => rfl
  | false =>
    cases b.held with
    | some step => rfl
    | none =>
      simp only [Bool.false_eq_true, if_false]
      rw [exchange_eq]
      rcases b.submission with ⟨_ | _, s⟩
      · rfl
      · simp only [fetch_eq]
        show (match Service.nextStep b.session s with
          | (.error fault, s) => _
          | (.ok reply, s) => _) = _
        rcases Service.nextStep (α := α) b.session s with ⟨_ | reply, s'⟩
        · rfl
        · simp only
          cases reply.check <;> rfl

/-- A step comes from what was held, or from a reply without a defect. -/
theorem due_ok [Service σ α] {b c : Broker σ α} {step : Step α} {report : TickReport α}
    (h : b.due = (.ok (step, report), c)) :
    b.finished = false ∧
      ((b.held = some step ∧ report = blankReport ∧ c = { b with held := none }) ∨
        (b.held = none ∧ report = b.sendReport ∧ ∃ reply s, b.delivery = (.ok reply, s) ∧
          reply.check = .ok step ∧
          c = { b.sent with service := s, insertedLastTick := [] })) := by
  unfold due at h
  cases hf : b.finished with
  | true => rw [hf] at h; cases h
  | false =>
    refine ⟨rfl, ?_⟩
    rw [hf] at h
    cases hh : b.held with
    | some held =>
      rw [hh] at h
      cases h
      exact .inl ⟨rfl, rfl, rfl⟩
    | none =>
      rw [hh] at h
      refine .inr ⟨rfl, ?_⟩
      unfold delivery
      rcases hs : b.submission with ⟨_ | _, s⟩
      · rw [hs] at h; cases h
      · simp only [hs] at h ⊢
        rcases hn : Service.nextStep (α := α) b.session s with ⟨_ | reply, s'⟩
        · rw [hn] at h; cases h
        · simp only [hn] at h
          cases hc : reply.check with
          | error defect => rw [hc] at h; cases h
          | ok step' =>
            rw [hc] at h
            cases h
            exact ⟨rfl, reply, s', rfl, hc, rfl⟩

/-- Without a step nothing but the pending orders, the service and the journal
has changed. -/
theorem due_error [Service σ α] {b c : Broker σ α} {fault : BrokerFault α}
    (h : b.due = (.error fault, c)) :
    (b.finished = true ∧ fault = .finished .tick ∧ c = b) ∨
      (b.finished = false ∧ b.held = none ∧ ∃ s, c = { b.sent with service := s } ∧
        ((∃ cause, b.submission = (.error cause, s) ∧
            fault = .ofService cause b.sifted.accepted) ∨
          (∃ cause t, b.submission = (.ok (), t) ∧ b.delivery = (.error cause, s) ∧
            fault = .ofService cause []) ∨
          (∃ reply defect, b.delivery = (.ok reply, s) ∧ reply.check = .error defect ∧
            fault = .protocol (.malformed defect)))) := by
  unfold due at h
  cases hf : b.finished with
  | true =>
    rw [hf] at h
    cases h
    exact .inl ⟨rfl, rfl, rfl⟩
  | false =>
    rw [hf] at h
    cases hh : b.held with
    | some held => rw [hh] at h; cases h
    | none =>
      rw [hh] at h
      refine .inr ⟨rfl, rfl, ?_⟩
      unfold delivery
      rcases hs : b.submission with ⟨cause | _, s⟩
      · rw [hs] at h
        cases h
        exact ⟨s, rfl, .inl ⟨cause, rfl, rfl⟩⟩
      · simp only [hs] at h ⊢
        rcases hn : Service.nextStep (α := α) b.session s with ⟨cause | reply, s'⟩
        · rw [hn] at h
          cases h
          exact ⟨s', rfl, .inr (.inl ⟨cause, s, rfl, rfl, rfl⟩)⟩
        · simp only [hn] at h
          cases hc : reply.check with
          | ok step => rw [hc] at h; cases h
          | error defect =>
            rw [hc] at h
            cases h
            exact ⟨s', rfl, .inr (.inr ⟨reply, defect, rfl, hc, rfl⟩)⟩

/-- A step that is about to be applied is not held as well. -/
theorem due_held [Service σ α] {b c : Broker σ α} {step : Step α} {report : TickReport α}
    (h : b.due = (.ok (step, report), c)) : c.held = none := by
  rcases due_ok h with ⟨-, ⟨-, -, rfl⟩ | ⟨hfree, -, reply, s, -, -, rfl⟩⟩
  · rfl
  · exact hfree

/-- A reply is delivered once the orders have been taken. -/
theorem submission_of_delivery [Service σ α] {b : Broker σ α} {reply : StepReply α} {s : σ}
    (h : b.delivery = (.ok reply, s)) :
    ∃ t, b.submission = (.ok (), t) ∧ Service.nextStep b.session t = (.ok reply, s) := by
  unfold delivery at h
  rcases hs : b.submission with ⟨cause | _, t⟩
  · rw [hs] at h
    cases h
  · rw [hs] at h
    exact ⟨t, rfl, h⟩

/-- What becomes of a reply to a fresh tick. -/
theorem due_of_delivery [Service σ α] {b : Broker σ α} (hactive : b.finished = false)
    (hfree : b.held = none) {reply : StepReply α} {s : σ} (h : b.delivery = (.ok reply, s)) :
    b.due = match reply.check with
      | .error defect => (.error (.protocol (.malformed defect)), { b.sent with service := s })
      | .ok step =>
        (.ok (step, b.sendReport), { b.sent with service := s, insertedLastTick := [] }) := by
  unfold delivery at h
  unfold due
  rw [hactive, hfree]
  rcases hs : b.submission with ⟨_ | _, t⟩
  · rw [hs] at h; cases h
  · simp only [hs] at h
    simp only [Bool.false_eq_true, if_false, h]

/-- The broker as it begins to apply a step that has come from the service. -/
def begun (b : Broker σ α) (s : σ) : Broker σ α :=
  { b.sent with service := s, insertedLastTick := [] }

theorem tick_of_delivery [Service σ α] {b : Broker σ α} (hactive : b.finished = false)
    (hfree : b.held = none) {reply : StepReply α} {s : σ} (h : b.delivery = (.ok reply, s))
    {step : Step α} (hcheck : reply.check = .ok step) :
    b.tick = (b.begun s).applyStep step b.sendReport := by
  rw [tick_eq, due_of_delivery hactive hfree h, hcheck]
  rfl

/-- A fresh tick takes the pending orders out, whether or not it gets a step. -/
theorem due_fresh [Service σ α] {b : Broker σ α} (hactive : b.finished = false)
    (hfree : b.held = none) :
    b.due.2.account = b.account.buffering [] ∧ b.due.2.journal = b.journal ++ b.flushEvents ∧
      b.due.2.service = b.delivery.2 := by
  rcases hd : b.due with ⟨fault | ⟨step, report⟩, c⟩
  · rcases due_error hd with ⟨hfinished, -, -⟩ | ⟨-, -, s, rfl, hcause⟩
    · rw [hactive] at hfinished
      cases hfinished
    · refine ⟨rfl, rfl, ?_⟩
      rcases hcause with ⟨cause, hs, -⟩ | ⟨cause, t, -, hdelivery, -⟩ |
        ⟨reply, defect, hdelivery, -, -⟩
      · unfold delivery
        rw [hs]
      · rw [hdelivery]
      · rw [hdelivery]
  · rcases due_ok hd with ⟨-, ⟨hheld, -, -⟩ | ⟨-, -, reply, s, hdelivery, -, rfl⟩⟩
    · rw [hfree] at hheld
      cases hheld
    · exact ⟨rfl, rfl, by rw [hdelivery]⟩

/-- What neither the sending of orders nor a step that is set aside changes,
procuring a step does not change. -/
theorem due_keeps [Service σ α] {γ : Type} (f : Broker σ α → γ)
    (hsent : ∀ b s ids, f { sent b with service := s, insertedLastTick := ids } = f b)
    (hheld : ∀ b held, f { b with held := held } = f b) (b : Broker σ α) : f b.due.2 = f b := by
  rcases hd : b.due with ⟨fault | ⟨step, report⟩, c⟩
  · rcases due_error hd with ⟨-, -, rfl⟩ | ⟨-, -, s, rfl, -⟩
    · rfl
    · exact hsent b s _
  · rcases due_ok hd with ⟨-, ⟨-, -, rfl⟩ | ⟨-, -, reply, s, -, -, rfl⟩⟩
    · exact hheld b none
    · exact hsent b s []

/-! ### Applying a step -/

/-- The broker with the market of a step. -/
def adopt (b : Broker σ α) (step : Step α) : Broker σ α :=
  { b with quotes := step.quotes, depths := step.depths, now := step.time <|> b.now }

/-- A step ends the session, or its market is taken over; then the account has a
value or some holding has no quote. -/
theorem conclude_cases (b : Broker σ α) (step : Step α) (report : TickReport α) :
    (step.hasNext = false ∧ b.conclude step report =
      (.ok { report with now := b.now, finished := true },
        note { b with finished := true } [.sessionFinished])) ∨
    (step.hasNext = true ∧ ∃ symbol, b.account.ledger.value step.quotes = .error symbol ∧
      b.conclude step report = (.error (.staleQuote symbol), b.adopt step)) ∨
    (step.hasNext = true ∧ ∃ value, b.account.ledger.value step.quotes = .ok value ∧
      b.conclude step report =
        (.ok { report with now := (b.adopt step).now, value := some value },
          note { b.adopt step with values := b.values ++ [value] }
            [.tickCompleted (b.adopt step).now value])) := by
  unfold conclude
  cases step.hasNext with
  | false => exact .inl ⟨rfl, rfl⟩
  | true =>
    refine .inr ?_
    simp only [Bool.not_true, Bool.false_eq_true, if_false]
    cases b.account.ledger.value step.quotes with
    | error symbol => exact .inl ⟨trivial, symbol, rfl, rfl⟩
    | ok value => exact .inr ⟨trivial, value, rfl, rfl⟩

/-- The report has no part in what concluding a step does. -/
theorem conclude_ending (b : Broker σ α) (step : Step α) {report report' : TickReport α}
    (h : report.ending = report'.ending) :
    (b.conclude step report).2 = (b.conclude step report').2 ∧
      (b.conclude step report).1.map TickReport.ending =
        (b.conclude step report').1.map TickReport.ending := by
  obtain ⟨-, h⟩ := Prod.mk.inj h
  obtain ⟨hvalue, hfinished⟩ := Prod.mk.inj h
  unfold conclude
  cases step.hasNext with
  | false =>
    refine ⟨rfl, ?_⟩
    show Except.ok (b.now, report.value, true) = Except.ok (b.now, report'.value, true)
    rw [hvalue]
  | true =>
    simp only [Bool.not_true, Bool.false_eq_true, if_false]
    cases b.account.ledger.value step.quotes with
    | error symbol => exact ⟨rfl, rfl⟩
    | ok value =>
      refine ⟨rfl, ?_⟩
      show Except.ok (_, some value, report.finished) = Except.ok (_, some value, report'.finished)
      rw [hfinished]

theorem conclude_outcome (b : Broker σ α) (step : Step α) (report : TickReport α) :
    (∃ done, (b.conclude step report).1 = .ok done) ∨
      ∃ symbol, (b.conclude step report).1 = .error (.staleQuote symbol) := by
  rcases b.conclude_cases step report with ⟨-, hc⟩ | ⟨-, symbol, -, hc⟩ | ⟨-, value, -, hc⟩
  · exact .inl ⟨_, congrArg Prod.fst hc⟩
  · exact .inr ⟨symbol, congrArg Prod.fst hc⟩
  · exact .inl ⟨_, congrArg Prod.fst hc⟩

/-- What neither the end of the session nor a new market changes, concluding a
step does not change. -/
theorem conclude_keeps {γ : Type} (f : Broker σ α → γ)
    (h : ∀ (b : Broker σ α) finished quotes depths now values journal,
      f { b with finished := finished, quotes := quotes, depths := depths, now := now
                 values := values, journal := journal } = f b)
    (b : Broker σ α) (step : Step α) (report : TickReport α) :
    f (b.conclude step report).2 = f b := by
  rcases b.conclude_cases step report with ⟨-, hc⟩ | ⟨-, symbol, -, hc⟩ | ⟨-, value, -, hc⟩
  · rw [hc]; exact h b _ _ _ _ _ _
  · rw [hc]; exact h b _ _ _ _ _ _
  · rw [hc]; exact h b _ _ _ _ _ _

/-- Applying a step stops at an item that fails, or takes all items and
concludes. -/
theorem applyStep_cases (b : Broker σ α) (step : Step α) (report : TickReport α) :
    (∃ done i rest cause c, step.items = done ++ i :: rest ∧ feed takeItem b done = (c, none) ∧
      c.takeItem i = .error cause ∧ b.applyStep step report =
        (.error (.ofDiscrepancy cause), { c with held := some (step.keeping rest) })) ∨
    (∃ c, feed takeItem b step.items = (c, none) ∧ b.applyStep step report =
      c.conclude step
        { report with executed := step.executed, inserted := step.inserted.map (·.1) }) := by
  rw [applyStep_eq]
  rcases hf : feed takeItem b step.items with ⟨c, _ | ⟨cause, rest⟩⟩
  · exact .inr ⟨c, rfl, rfl⟩
  · obtain ⟨done, i, hitems, hdone, hi⟩ := feed_stops hf
    exact .inl ⟨done, i, rest, cause, c, hitems, hdone, hi, rfl⟩

/-- A step that is completed has had all its items taken, and either ended the session
or had its market taken over. -/
theorem applyStep_ok {b : Broker σ α} {step : Step α} {report done : TickReport α}
    (h : (b.applyStep step report).1 = .ok done) :
    ∃ c, feed takeItem b step.items = (c, none) ∧
      done.submitted = report.submitted ∧ done.rejected = report.rejected ∧
      done.executed = step.executed ∧ done.inserted = step.inserted.map (·.1) ∧
      ((step.hasNext = false ∧ done.finished = true ∧ (b.applyStep step report).2 =
          note { c with finished := true } [.sessionFinished]) ∨
        (step.hasNext = true ∧ done.finished = report.finished ∧ ∃ value,
          done.value = some value ∧ (b.applyStep step report).2 =
            note { c.adopt step with values := c.values ++ [value] }
              [.tickCompleted (c.adopt step).now value])) := by
  rcases b.applyStep_cases step report with ⟨_, _, _, _, c, -, -, -, ha⟩ | ⟨c, hfeed, ha⟩
  · rw [ha] at h
    cases h
  · rw [ha] at h ⊢
    rcases c.conclude_cases step _ with ⟨hlast, hc⟩ | ⟨-, symbol, -, hc⟩ | ⟨hnext, value, -, hc⟩
    · rw [hc] at h ⊢
      cases h
      exact ⟨c, hfeed, rfl, rfl, rfl, rfl, .inl ⟨hlast, rfl, rfl⟩⟩
    · rw [hc] at h
      cases h
    · rw [hc] at h ⊢
      cases h
      exact ⟨c, hfeed, rfl, rfl, rfl, rfl, .inr ⟨hnext, rfl, value, rfl, rfl⟩⟩

/-- What booking an item, setting the rest of a step aside and concluding do not
change, applying a step does not change. -/
theorem applyStep_keeps {γ : Type} (f : Broker σ α → γ) (hbook : ∀ b a i, f (book b a i) = f b)
    (hheld : ∀ b held, f { b with held := held } = f b)
    (hconclude : ∀ b step report, f (conclude b step report).2 = f b)
    (b : Broker σ α) (step : Step α) (report : TickReport α) :
    f (b.applyStep step report).2 = f b := by
  have hfeed := fun items => feed_keeps f hbook items b
  rcases b.applyStep_cases step report with ⟨done, i, rest, cause, c, -, hd, -, ha⟩ | ⟨c, hd, ha⟩
  · rw [ha]
    have hc := hfeed done
    rw [hd] at hc
    exact (hheld c _).trans hc
  · rw [ha]
    have hc := hfeed step.items
    rw [hd] at hc
    exact (hconclude c step _).trans hc

/-- **What each stage keeps, a tick keeps.** -/
theorem tick_invariant [Service σ α] {P : Broker σ α → Prop} (hdue : ∀ b, P b → P b.due.2)
    (htake : ∀ b i c, P b → takeItem b i = .ok c → P c)
    (hheld : ∀ b held, P b → P { b with held := held })
    (hconclude : ∀ b step report, P b → P (conclude b step report).2) (b : Broker σ α)
    (hb : P b) : P b.tick.2 := by
  have hd := hdue b hb
  rw [tick_eq]
  rcases hdb : b.due with ⟨fault | ⟨step, report⟩, c⟩
  · rw [hdb] at hd
    exact hd
  · rw [hdb] at hd
    have hfeed := fun items => feed_invariant htake items c hd
    simp only
    rcases c.applyStep_cases step report with ⟨done, i, rest, cause, d, -, hf, -, ha⟩ | ⟨d, hf, ha⟩
    · rw [ha]
      have hP := hfeed done
      rw [hf] at hP
      exact hheld d _ hP
    · rw [ha]
      have hP := hfeed step.items
      rw [hf] at hP
      exact hconclude d step _ hP

end Broker
end Brokerage
