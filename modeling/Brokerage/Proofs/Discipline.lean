/-
# When the service is called

A broker opens its session once, after the cash and the request have been looked at
(`Broker.connect_tape`). From then on a caller can insert, tick, put questions and
change the service, in any order, and each operation asks of the service what it may and
no more (`Broker.operate_tape`). Once a reply has ended the session no order is sent and
no step is asked for (`Disciplined.operate`), and a finished session stays as it is.

Key definitions: `Operation`, `Broker.operate`, `Broker.operated`, `Broker.MayAsk`,
`ServiceCall.EndsSession`, `Disciplined`.
Key theorems: `Broker.checkSetup_ok_iff`, `Broker.connect_opened`, `Broker.connect_tape`,
`Broker.operate_tape`, `Broker.operate_untaped`, `Disciplined.operate`,
`Broker.service_calls_disciplined`.
-/
import Brokerage.Proofs.Asked
import Brokerage.Proofs.LastStep

namespace Brokerage

variable {σ τ α : Type} [Amount α]

/-- What a caller can do with an open broker. -/
inductive Operation (σ α : Type) [Amount α] where
  | call (made : Call α)
  | sessionInfo
  | datasetSpan
  | remoteClock
  /-- The service is changed past the broker. -/
  | touch (change : σ → σ)

/-- The same operation at a taped service. What is done past the broker is not on the
tape. -/
def Operation.taped : Operation σ α → Operation (Taped σ α) α
  | .call made => .call made
  | .sessionInfo => .sessionInfo
  | .datasetSpan => .datasetSpan
  | .remoteClock => .remoteClock
  | .touch change => .touch fun t => { t with service := change t.service }

/-- The call that an operation makes, if it makes one. -/
def Operation.calls : Operation σ α → List (Call α)
  | .call made => [made]
  | _ => []

namespace ServiceCall

/-- The answer is a step after which there is none. -/
def EndsSession : ServiceCall α → Prop
  | .nextStep _ (.ok reply) => reply.EndsSession
  | _ => False

/-- The call submits orders or asks for a step. -/
def isExchange : ServiceCall α → Bool
  | .submit _ _ _ | .nextStep _ _ => true
  | _ => false

def isOpening : ServiceCall α → Bool
  | .openSession _ _ => true
  | _ => false

end ServiceCall

namespace Broker

/-! ### Questions -/

/-- A question changes nothing but the service. -/
theorem ask_service {β : Type} (b : Broker σ α) (question : σ → Except ServiceFault β × σ) :
    (b.ask question).2 = { b with service := (question b.service).2 } := by
  unfold ask
  rcases question b.service with ⟨fault | answer, s⟩ <;> rfl

theorem ask_untaped {β : Type} (b : Broker (Taped σ α) α)
    (question : σ → Except ServiceFault β × σ) (call : Except ServiceFault β → ServiceCall α) :
    (b.ask fun t => t.hear (question t.service) call).2.untaped = (b.untaped.ask question).2 := by
  rw [ask_service, ask_service]
  rfl

/-! ### Opening a session -/

/-- **A setup is complete and sensible** if it has a request and cash that is finite and
not below zero. -/
theorem checkSetup_ok_iff (setup : Setup α) (cash : α) (request : SessionRequest) :
    checkSetup setup = .ok (cash, request) ↔
      setup.cash = some cash ∧ Amount.isFinite cash = true ∧ ¬ cash < 0 ∧
        setup.request = some request := by
  unfold checkSetup
  cases setup.cash with
  | none => simp
  | some c =>
    by_cases hbad : (!Amount.isFinite c || decide (c < 0)) = true
    · simp only [hbad, if_true]
      refine ⟨fun h => (by cases h), fun ⟨hc, hfinite, hpos, _⟩ => ?_⟩
      cases hc
      simp [hfinite, hpos] at hbad
    · have hgood := hbad
      simp only [Bool.or_eq_true, Bool.not_eq_true', decide_eq_true_eq, not_or,
        Bool.not_eq_false] at hgood
      simp only [hbad]
      cases setup.request with
      | none => simp
      | some r =>
        constructor
        · intro h
          cases h
          exact ⟨rfl, hgood.1, hgood.2, rfl⟩
        · rintro ⟨hc, -, -, hr⟩
          cases hc
          cases hr
          rfl

/-- The service as opening a session leaves it. -/
def serviceLeft : Except (BrokerFault α × σ) (Broker σ α) → σ
  | .error (_, service) => service
  | .ok b => b.service

variable [Service σ α]

/-- A session that is open was opened by the service for a setup that has passed the
checks. -/
theorem connect_opened {setup : Setup α} {service : σ} {b : Broker σ α}
    (h : connect setup service = .ok b) : ∃ cash request opening s,
      (setup.cash = some cash ∧ Amount.isFinite cash = true ∧ ¬ cash < 0 ∧
        setup.request = some request) ∧
      Service.openSession request service = (.ok opening, s) ∧ b.service = s ∧
        b.quotes = opening.quotes ∧ b.depths = opening.depths ∧
        b.now = latestDate opening.quotes := by
  unfold connect at h
  cases hs : checkSetup setup with
  | error fault => rw [hs] at h; cases h
  | ok checked =>
    obtain ⟨cash, request⟩ := checked
    rw [hs] at h
    rcases ho : Service.openSession request service with ⟨fault | opening, s⟩
    · simp only [ho] at h
      cases h
    · simp only [ho] at h
      cases h
      exact ⟨cash, request, opening, s, (checkSetup_ok_iff setup cash request).mp hs, ho, rfl, rfl,
        rfl, rfl⟩

/-- **A session is requested once,** and only with a setup that has passed the checks. -/
theorem connect_tape (setup : Setup α) (service : σ) :
    let opened := connect setup (⟨service, []⟩ : Taped σ α)
    (∃ cash request answer, (setup.cash = some cash ∧ Amount.isFinite cash = true ∧
        ¬ cash < 0 ∧ setup.request = some request) ∧
      (serviceLeft opened).tape = [.openSession request answer]) ∨
    ∃ fault, opened = .error (.setup fault, ⟨service, []⟩) := by
  intro opened
  cases hs : checkSetup setup with
  | error fault =>
    refine .inr ⟨fault, ?_⟩
    show connect setup (⟨service, []⟩ : Taped σ α) = _
    unfold connect
    rw [hs]
  | ok checked =>
    obtain ⟨cash, request⟩ := checked
    refine .inl ⟨cash, request, (Service.openSession request service).1,
      (checkSetup_ok_iff setup cash request).mp hs, ?_⟩
    show (serviceLeft (connect setup (⟨service, []⟩ : Taped σ α))).tape = _
    have hear : Service.openSession request (⟨service, []⟩ : Taped σ α) =
        Taped.hear ⟨service, []⟩ (Service.openSession request service) (.openSession request) := rfl
    unfold connect
    rw [hs]
    simp only [hear]
    rcases Service.openSession (α := α) request service with ⟨fault | opening, s⟩ <;> rfl

/-! ### Operations -/

def operate (b : Broker σ α) : Operation σ α → Broker σ α
  | .call made => (b.perform made).2
  | .sessionInfo => b.sessionInfo.2
  | .datasetSpan => b.datasetSpan.2
  | .remoteClock => b.remoteClock.2
  | .touch change => { b with service := change b.service }

/-- The broker after some operations. -/
def operated (b : Broker σ α) (ops : List (Operation σ α)) : Broker σ α :=
  ops.foldl operate b

/-- What an operation may ask of the service. -/
inductive MayAsk (b : Broker σ α) : Operation τ α → List (ServiceCall α) → Prop
  | insertion (order : Order α) : b.MayAsk (.call (.insert order)) []
  /-- The session is finished, or a step is held. -/
  | stale (h : (b.finished || b.held.isSome) = true) : b.MayAsk (.call .tick) []
  /-- There is nothing to submit. -/
  | idle (hactive : b.finished = false) (hfree : b.held = none) (hnone : b.accepted = []) :
    b.MayAsk (.call .tick) [.nextStep b.session b.delivery.1]
  | acknowledged (hactive : b.finished = false) (hfree : b.held = none)
      (hsome : b.accepted ≠ []) :
    b.MayAsk (.call .tick)
      [.submit b.session b.accepted (.ok ()), .nextStep b.session b.delivery.1]
  | unacknowledged (hactive : b.finished = false) (hfree : b.held = none)
      (hsome : b.accepted ≠ []) (fault : ServiceFault) :
    b.MayAsk (.call .tick) [.submit b.session b.accepted (.error fault)]
  | sessionInfo (answer : Except ServiceFault SessionInfo) :
    b.MayAsk .sessionInfo [.sessionInfo b.session answer]
  | datasetSpan (answer : Except ServiceFault DatasetSpan) :
    b.MayAsk .datasetSpan [.datasetSpan answer]
  | remoteClock (answer : Except ServiceFault Clock) :
    b.MayAsk .remoteClock [.clock b.session answer]
  | touch (change : τ → τ) : b.MayAsk (.touch change) []

theorem mayAsk_asking (b : Broker σ α) : ∀ call : Call α,
    b.MayAsk (.call call : Operation τ α) (b.asking call)
  | .insert order => .insertion order
  | .tick => by
    cases hstale : b.finished || b.held.isSome with
    | true =>
      rw [asking_stale hstale]
      exact .stale hstale
    | false =>
      obtain ⟨hactive, hfree⟩ := fresh_iff.mp hstale
      rcases asking_fresh hactive hfree with ⟨hnone, -, hasking⟩ | ⟨hsome, -, hasking⟩ |
        ⟨hsome, fault, -, hasking⟩
      · rw [hasking]
        exact .idle hactive hfree hnone
      · rw [hasking]
        exact .acknowledged hactive hfree hsome
      · rw [hasking]
        exact .unacknowledged hactive hfree hsome fault

/-- **An operation asks what it may,** and that is what the tape goes on with. -/
theorem operate_tape (b : Broker (Taped σ α) α) (op : Operation σ α) : ∃ asked,
    b.MayAsk op asked ∧ (b.operate op.taped).service.tape = b.service.tape ++ asked := by
  cases op with
  | call call => exact ⟨b.asking call, b.mayAsk_asking call, b.perform_tape call⟩
  | sessionInfo => exact ⟨_, .sessionInfo _, congrArg (·.service.tape) (b.ask_service _)⟩
  | datasetSpan => exact ⟨_, .datasetSpan _, congrArg (·.service.tape) (b.ask_service _)⟩
  | remoteClock => exact ⟨_, .remoteClock _, congrArg (·.service.tape) (b.ask_service _)⟩
  | touch change => exact ⟨[], .touch change, (List.append_nil _).symm⟩

theorem operate_untaped (b : Broker (Taped σ α) α) (op : Operation σ α) :
    (b.operate op.taped).untaped = b.untaped.operate op := by
  cases op with
  | call made =>
    show (b.perform made).2.untaped = (b.untaped.perform made).2
    rw [perform_untaped]
  | sessionInfo => exact b.ask_untaped (Service.sessionInfo b.session) (.sessionInfo b.session)
  | datasetSpan => exact b.ask_untaped Service.datasetSpan .datasetSpan
  | remoteClock => exact b.ask_untaped (Service.clock b.session) (.clock b.session)
  | touch change => rfl

theorem operated_untaped : ∀ (ops : List (Operation σ α)) (b : Broker (Taped σ α) α),
    (b.operated (ops.map .taped)).untaped = b.untaped.operated ops
  | [], _ => rfl
  | op :: ops, b => by
    show ((b.operate op.taped).operated (ops.map .taped)).untaped = (b.untaped.operate op).operated ops
    rw [operated_untaped ops, operate_untaped]

/-! ### What is kept -/

/-- An operation is a call, or it changes nothing but the service. -/
theorem operate_cases (b : Broker σ α) (op : Operation σ α) :
    (∃ made, b.operate op = (b.perform made).2) ∨
      ∃ s, b.operate op = { b with service := s } := by
  cases op with
  | call made => exact .inl ⟨made, rfl⟩
  | sessionInfo => exact .inr ⟨_, b.ask_service _⟩
  | datasetSpan => exact .inr ⟨_, b.ask_service _⟩
  | remoteClock => exact .inr ⟨_, b.ask_service _⟩
  | touch change => exact .inr ⟨_, rfl⟩

/-- What is not a call changes nothing but the service. -/
theorem operate_calls (b : Broker σ α) (op : Operation σ α) :
    (∃ made, op = .call made) ∨ (op.calls = [] ∧ ∃ s, b.operate op = { b with service := s }) := by
  cases op with
  | call made => exact .inl ⟨made, rfl⟩
  | sessionInfo => exact .inr ⟨rfl, _, b.ask_service _⟩
  | datasetSpan => exact .inr ⟨rfl, _, b.ask_service _⟩
  | remoteClock => exact .inr ⟨rfl, _, b.ask_service _⟩
  | touch change => exact .inr ⟨rfl, _, rfl⟩

/-- What every call keeps and no change of the service disturbs, operations keep. -/
theorem operated_invariant {P : Broker σ α → Prop}
    (hcall : ∀ b made, P b → P (Broker.perform b made).2)
    (hservice : ∀ b s, P b → P { b with service := s }) :
    ∀ (ops : List (Operation σ α)) {b : Broker σ α}, P b → P (b.operated ops)
  | [], _, hb => hb
  | op :: ops, b, hb => by
    show P ((b.operate op).operated ops)
    refine operated_invariant hcall hservice ops ?_
    rcases b.operate_cases op with ⟨made, hop⟩ | ⟨s, hop⟩
    · rw [hop]
      exact hcall b made hb
    · rw [hop]
      exact hservice b s hb

/-- What `f` sees at each call among some operations, put together. -/
def collect {γ : Type} (f : Broker σ α → Call α → List γ) :
    Broker σ α → List (Operation σ α) → List γ
  | _, [] => []
  | b, op :: ops => op.calls.flatMap (f b) ++ collect f (b.operate op) ops

/-- What is picked out of what is seen at each call. -/
theorem collect_filterMap {γ δ : Type} (f : Broker σ α → Call α → List γ) (g : γ → Option δ) :
    ∀ (ops : List (Operation σ α)) (b : Broker σ α),
      collect (fun b call => (f b call).filterMap g) b ops = (collect f b ops).filterMap g
  | [], _ => rfl
  | op :: ops, b => by
    rw [collect, collect, collect_filterMap f g ops, List.filterMap_append,
      List.filterMap_flatMap]

/-- A relation between the broker and two records that every call keeps and no change of
the service disturbs. -/
theorem operated_record {γ δ : Type} {P : List γ → List δ → Broker σ α → Prop}
    {f : Broker σ α → Call α → List γ} {g : Broker σ α → Call α → List δ}
    (hcall : ∀ xs ys b made, P xs ys b → P (xs ++ f b made) (ys ++ g b made) (perform b made).2)
    (hservice : ∀ xs ys b s, P xs ys b → P xs ys { b with service := s }) :
    ∀ (ops : List (Operation σ α)) (xs : List γ) (ys : List δ) {b : Broker σ α}, P xs ys b →
      P (xs ++ collect f b ops) (ys ++ collect g b ops) (b.operated ops)
  | [], xs, ys, b, hb => by
    rw [collect, collect, List.append_nil, List.append_nil]
    exact hb
  | op :: ops, xs, ys, b, hb => by
    show P _ _ ((b.operate op).operated ops)
    rw [collect, collect, ← List.append_assoc, ← List.append_assoc]
    refine operated_record hcall hservice ops _ _ ?_
    rcases b.operate_calls op with ⟨made, rfl⟩ | ⟨hnone, s, hop⟩
    · rw [Operation.calls, List.flatMap_singleton, List.flatMap_singleton]
      exact hcall xs ys b made hb
    · rw [hnone, hop, List.flatMap_nil, List.flatMap_nil, List.append_nil, List.append_nil]
      exact hservice xs ys b s hb

theorem operate_onLastStep {b : Broker σ α} (h : b.OnLastStep) (op : Operation σ α) :
    (b.operate op).OnLastStep := by
  rcases b.operate_cases op with ⟨made, hop⟩ | ⟨s, hop⟩
  · rw [hop]
    exact onLastStep_perform h made
  · rw [hop]
    exact h

theorem operate_finished {b : Broker σ α} (h : b.finished = true) (op : Operation σ α) :
    (b.operate op).finished = true := by
  rcases b.operate_cases op with ⟨made, hop⟩ | ⟨s, hop⟩
  · rw [hop]
    cases made with
    | insert order =>
      show (b.insert order).2.finished = true
      rw [insert_finished h]
      exact h
    | tick =>
      show b.tick.2.finished = true
      rw [tick_finished h]
      exact h
  · rw [hop]
    exact h

theorem operated_finished : ∀ (ops : List (Operation σ α)) {b : Broker σ α},
    b.finished = true → (b.operated ops).finished = true
  | [], _, h => h
  | op :: ops, _, h => operated_finished ops (operate_finished h op)

namespace MayAsk

variable {b : Broker σ α} {op : Operation τ α} {asked : List (ServiceCall α)}

/-- The session is not opened again. -/
theorem not_opening (h : b.MayAsk op asked) : ∀ call ∈ asked, call.isOpening = false := by
  cases h <;> simp [ServiceCall.isOpening]

/-- On the last step nothing is exchanged. -/
theorem not_exchange (h : b.MayAsk op asked) (hlast : b.OnLastStep) :
    ∀ call ∈ asked, call.isExchange = false := by
  have hstale := hlast.stale
  cases h with
  | idle hactive hfree | acknowledged hactive hfree | unacknowledged hactive hfree =>
    rw [fresh_iff.mpr ⟨hactive, hfree⟩] at hstale
    cases hstale
  | _ => simp [ServiceCall.isExchange]

/-- A reply that ends the session is the last that is asked. -/
theorem pairwise (h : b.MayAsk op asked) : asked.Pairwise fun earlier later =>
    earlier.EndsSession → later.isExchange = false := by
  cases h <;> simp [ServiceCall.EndsSession]

/-- A reply that ends the session answers a fresh tick. -/
theorem delivered (h : b.MayAsk op asked) (hends : ∃ call ∈ asked, call.EndsSession) :
    op = .call .tick ∧ b.finished = false ∧ b.held = none ∧
      ∃ reply, b.delivery.1 = .ok reply ∧ reply.EndsSession := by
  have hreply : ∀ answer : Except ServiceFault (StepReply α),
      (ServiceCall.nextStep b.session answer).EndsSession →
        ∃ reply, answer = .ok reply ∧ reply.EndsSession := by
    intro answer h
    cases answer with
    | error fault => cases h
    | ok reply => exact ⟨reply, rfl, h⟩
  obtain ⟨call, hmem, hends⟩ := hends
  cases h with
  | idle hactive hfree =>
    obtain rfl := List.mem_singleton.mp hmem
    exact ⟨rfl, hactive, hfree, hreply _ hends⟩
  | acknowledged hactive hfree =>
    rcases List.mem_cons.mp hmem with rfl | hmem
    · cases hends
    · obtain rfl := List.mem_singleton.mp hmem
      exact ⟨rfl, hactive, hfree, hreply _ hends⟩
  | insertion | stale | touch => cases hmem
  | unacknowledged | sessionInfo | datasetSpan | remoteClock =>
    obtain rfl := List.mem_singleton.mp hmem
    cases hends

end MayAsk

end Broker

/-- After a reply that ends the session nothing is exchanged on the tape, and nothing
will be, since the broker is on the last step. -/
structure Disciplined (b : Broker (Taped σ α) α) : Prop where
  pairwise : b.service.tape.Pairwise fun earlier later =>
    earlier.EndsSession → later.isExchange = false
  onLastStep : (∃ call ∈ b.service.tape, call.EndsSession) → b.OnLastStep

variable [Service σ α]

/-- **Every operation keeps the discipline.** -/
theorem Disciplined.operate {b : Broker (Taped σ α) α} (h : Disciplined b)
    (op : Operation σ α) : Disciplined (b.operate op.taped) := by
  obtain ⟨asked, hask, htape⟩ := b.operate_tape op
  constructor
  · rw [htape, List.pairwise_append]
    refine ⟨h.pairwise, hask.pairwise, fun earlier hearlier later hlater hends => ?_⟩
    exact hask.not_exchange (h.onLastStep ⟨earlier, hearlier, hends⟩) later hlater
  · rintro ⟨call, hmem, hends⟩
    rw [htape] at hmem
    rcases List.mem_append.mp hmem with hmem | hmem
    · exact Broker.operate_onLastStep (h.onLastStep ⟨call, hmem, hends⟩) op.taped
    · obtain ⟨rfl, hactive, hfree, reply, hreply, hends⟩ := hask.delivered ⟨call, hmem, hends⟩
      exact Broker.onLastStep_of_delivery hactive hfree hreply hends

theorem Disciplined.operated : ∀ (ops : List (Operation σ α)) {b : Broker (Taped σ α) α},
    Disciplined b → Disciplined (b.operated (ops.map .taped))
  | [], _, h => h
  | op :: ops, _, h => Disciplined.operated ops (h.operate op)

namespace Broker

/-- Operations add to the tape, and no opening of a session. -/
theorem operated_tape : ∀ (ops : List (Operation σ α)) (b : Broker (Taped σ α) α), ∃ asked,
    (b.operated (ops.map .taped)).service.tape = b.service.tape ++ asked ∧
      ∀ call ∈ asked, call.isOpening = false
  | [], _ => ⟨[], (List.append_nil _).symm, fun _ h => by cases h⟩
  | op :: ops, b => by
    obtain ⟨first, hask, htape⟩ := b.operate_tape op
    obtain ⟨asked, hrest, hnone⟩ := operated_tape ops (b.operate op.taped)
    refine ⟨first ++ asked, ?_, fun call hmem => ?_⟩
    · rw [← List.append_assoc, ← htape]
      exact hrest
    · rcases List.mem_append.mp hmem with hmem | hmem
      · exact hask.not_opening call hmem
      · exact hnone call hmem

/-- **The service is called with discipline,** whatever it answers and whatever the
caller does. The session is requested once, with a setup that has passed the checks, or
not at all. In every state that operations lead to:

* each operation asks what it may: a fresh tick submits at most one batch, and not an
  empty one, and then asks for a step unless the batch was not taken; an insertion, and
  a tick that is not fresh, ask nothing;
* once a reply has ended the session, no batch and no step request has followed it;
* if the session is finished, then insertions and ticks are refused from now on and
  leave the broker as it is. -/
theorem service_calls_disciplined (setup : Setup α) (service : σ) :
    let opened := connect setup (⟨service, []⟩ : Taped σ α)
    ((∃ cash request answer, (setup.cash = some cash ∧ Amount.isFinite cash = true ∧
        ¬ cash < 0 ∧ setup.request = some request) ∧
      (serviceLeft opened).tape = [.openSession request answer]) ∨
      ∃ fault, opened = .error (.setup fault, ⟨service, []⟩)) ∧
    ∀ b, connect setup service = .ok b → ∃ b', opened = .ok b' ∧ b'.untaped = b ∧
      ∀ ops : List (Operation σ α), let c := b'.operated (ops.map .taped)
        c.untaped = b.operated ops ∧
        (∃ request answer asked, c.service.tape = .openSession request answer :: asked ∧
          ∀ call ∈ asked, call.isOpening = false) ∧
        (∀ op, ∃ asked, c.MayAsk op asked ∧
          (c.operate op.taped).service.tape = c.service.tape ++ asked) ∧
        (c.service.tape.Pairwise fun earlier later =>
          earlier.EndsSession → later.isExchange = false) ∧
        ((b.operated ops).finished = true → ∀ more, let d := b.operated (ops ++ more)
          d.finished = true ∧ d.tick = (.error (.finished .tick), d) ∧
          ∀ order, d.insert order = (.error (.finished .insertOrder), d)) := by
  refine ⟨connect_tape setup service, fun b hb => ?_⟩
  obtain ⟨b', request, opening, hopened, rfl, htape⟩ := connect_untaped hb
  have hstart : Disciplined b' := by
    constructor
    · rw [htape]
      exact List.pairwise_singleton _ _
    · rintro ⟨call, hmem, hends⟩
      rw [htape] at hmem
      obtain rfl := List.mem_singleton.mp hmem
      cases hends
  refine ⟨b', hopened, rfl, fun ops => ?_⟩
  obtain ⟨asked, hasked, hnone⟩ := operated_tape ops b'
  refine ⟨operated_untaped ops b', ⟨request, .ok opening, asked, by rw [hasked, htape]; rfl, hnone⟩,
    operate_tape _, (hstart.operated ops).pairwise, fun hfinished more => ?_⟩
  have hafter : b'.untaped.operated (ops ++ more) = (b'.untaped.operated ops).operated more :=
    List.foldl_append
  have hstays : (b'.untaped.operated (ops ++ more)).finished = true := by
    rw [hafter]
    exact operated_finished more hfinished
  exact ⟨hstays, tick_finished hstays, insert_finished hstays⟩

/-- The last step is held by the first tick and finished by the second; a third is
refused. -/
theorem sample_calls_refused :
    let d := sampleOverdrawn.operated [.call .tick, .call .tick]
    d.finished = true ∧ d.tick = (.error (.finished .tick), d) := by
  intro d
  obtain ⟨-, hruns⟩ := service_calls_disciplined sampleSetup
    { sampleService with script := [sampleOverdraft] }
  obtain ⟨b', -, -, hoperated⟩ := hruns sampleOverdrawn connect_overdrawn
  obtain ⟨-, -, -, -, hrefused⟩ := hoperated [.call .tick, .call .tick]
  have hfinished : (sampleOverdrawn.operated [.call .tick, .call .tick]).finished = true := by
    decide +kernel
  obtain ⟨-, htick, -⟩ := hrefused hfinished []
  exact ⟨hfinished, htick⟩

end Broker
end Brokerage
