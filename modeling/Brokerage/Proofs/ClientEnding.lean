/-
# A replay over HTTP ends

Every call of the service that has an answer has used up a reply, and no call gives one back
(`Operation.run_spends`). A completed tick finishes a step that was held or has the answer to
a question for the next one, so the replies to come, and one more while a step is held, are a
number that goes down (`Broker.repliesLeft_dwindles`). A replay on the command line has more
rounds than that: it ends by itself, never because the rounds are used up
(`Cli.Opens.rounds_suffice`), and the program exits with zero if and only if the replay is
completed (`Cli.replayPlan_exit`).

Key definitions: `Spends`, `Broker.repliesLeft`, `Cli.Opens`.
Key theorems: `Operation.run_spends`, `Broker.repliesLeft_dwindles`,
`Cli.Opens.rounds_suffice`, `Cli.replayPlan_exit`.
-/
import Brokerage.Cli
import Brokerage.Proofs.Discipline
import Brokerage.Proofs.Ending
import Brokerage.Proofs.Requests

namespace Brokerage
namespace Http

variable {ε β : Type}

/-- A call takes replies from those to come, and at least one if it has an answer. -/
structure Spends (c : Client) (done : Except ε β × Client) : Prop where
  le : done.2.replies.length ≤ c.replies.length
  lt : ∀ b, done.1 = .ok b → done.2.replies.length < c.replies.length

namespace Spends

variable {c c' : Client}

theorem failed (fault : ε) (h : c'.replies.length ≤ c.replies.length) :
    Spends c ((.error fault, c') : Except ε β × Client) where
  le := h
  lt _ hok := by cases hok

theorem answered (b : β) (h : c'.replies.length < c.replies.length) :
    Spends c ((.ok b, c') : Except ε β × Client) where
  le := Nat.le_of_lt h
  lt _ _ := h

/-- A call that is made after others have taken their replies. -/
theorem after {done : Except ε β × Client} (hdone : Spends c' done)
    (h : c'.replies.length ≤ c.replies.length) : Spends c done where
  le := Nat.le_trans hdone.le h
  lt b hok := Nat.lt_of_lt_of_le (hdone.lt b hok) h

end Spends

namespace Client

variable (destination : Except Failure Address) (method : Method) (body : String)

/-- An attempt takes the reply that it goes by. -/
theorem ask_spends (c : Client) : Spends c (c.ask destination method body) := by
  unfold ask
  cases destination with
  | error failure => exact .failed failure (Nat.le_refl _)
  | ok address =>
    unfold exchange
    cases hreplies : c.replies with
    | nil => exact .failed _ (Nat.zero_le _)
    | cons reply replies =>
      have hless : replies.length < c.replies.length := by
        rw [hreplies]
        exact Nat.lt_succ_self _
      exact ⟨Nat.le_of_lt hless, fun _ _ => hless⟩

/-- What is logged before an attempt takes none. -/
theorem spends_of_ask {c c' : Client} {level : LogLevel} {text : String}
    {result : Except Failure (Option String)}
    (h : (c.log level text).ask destination method body = (result, c')) :
    Spends c (result, c') := by
  have hask := (c.log level text).ask_spends destination method body
  rw [h] at hask
  exact ⟨hask.le, hask.lt⟩

/-- The attempts at a request take a reply each, and the last takes one if it has an
answer. -/
theorem attempt_spends (what : String) (limit : Nat) : ∀ (left : Nat) (c : Client),
    Spends c (attempt what destination method body limit left c) := by
  intro left
  induction left with
  | zero =>
    intro c
    rw [attempt]
    split
    · rename_i answer c' hasked
      exact .answered answer ((spends_of_ask destination method body hasked).lt _ rfl)
    · rename_i failure c' hasked
      have hask := spends_of_ask destination method body hasked
      split
      · exact .failed _ hask.le
      · exact .failed _ hask.le
  | succ left ih =>
    intro c
    rw [attempt]
    split
    · rename_i answer c' hasked
      exact .answered answer ((spends_of_ask destination method body hasked).lt _ rfl)
    · rename_i failure c' hasked
      have hask := spends_of_ask destination method body hasked
      split
      · exact .failed _ hask.le
      · simp only
        exact (ih _).after hask.le

end Client

namespace Operation

variable {β : Type} {op : Operation β}

/-- Only a request that was answered makes a call come to something. -/
theorem Concludes.answered {sent : Except ServiceFault (Option String)} {b : β}
    (h : op.Concludes sent (.ok b)) : ∃ answer, sent = .ok answer := by
  cases h with
  | read _ => exact ⟨_, rfl⟩
  | cut _ => exact ⟨_, rfl⟩

/-- **Every call takes replies,** and at least one if it comes to something. -/
theorem run_spends (op : Operation β) (c : Client) : Spends c (op.run c) := by
  obtain ⟨c₀, -, hreplies, -, -, hclient, hconcludes⟩ := op.run_send c
  have hsent : Spends c₀ (c₀.send op.path (op.mayRepeat c.retry) op.method op.body) :=
    Client.attempt_spends _ _ _ _ _ _ _
  refine ⟨?_, fun b hok => ?_⟩
  · rw [hclient, ← hreplies]
    exact hsent.le
  · rw [hok] at hconcludes
    obtain ⟨answer, hanswer⟩ := hconcludes.answered
    rw [hclient, ← hreplies]
    exact hsent.lt answer hanswer

end Operation

theorem Client.openSession_spends (request : SessionRequest) (c : Client) :
    Spends c (Service.openSession request c) :=
  (Operation.openSession request).run_spends c

theorem Client.submit_spends (session : SessionId) (orders : List (Order Float)) (c : Client) :
    Spends c (Service.submit session orders c) :=
  (Operation.submit session orders).run_spends c

theorem Client.nextStep_spends (session : SessionId) (c : Client) :
    Spends c (Service.nextStep session c) :=
  (Operation.nextStep session).run_spends c

end Http

namespace Broker

open Http (Client Operation)

/-- How many ticks can be completed at most: one for each reply to come, and one for a step
that is held. -/
def repliesLeft : Broker Client Float → Nat :=
  leftBy fun c => c.replies.length

/-- **A session over HTTP comes to its end** reply by reply. -/
theorem repliesLeft_dwindles : Dwindles repliesLeft :=
  Lasting.dwindles
    { submit := fun session orders c => (Client.submit_spends session orders c).le
      next := fun session c => (Client.nextStep_spends session c).le }
    fun session c => (Client.nextStep_spends session c).lt

/-- Opening a session takes a reply. -/
theorem connect_repliesLeft {setup : Setup Float} {client : Client} {b : Broker Client Float}
    (h : connect setup client = .ok b) : b.repliesLeft < client.replies.length := by
  obtain ⟨-, -, -, -, -, hfree, -⟩ := connect_ok h
  obtain ⟨-, request, opening, s, -, hopening, hservice, -⟩ := connect_opened h
  have hspent := client.openSession_spends request
  rw [hopening] at hspent
  show leftBy _ b < _
  rw [leftBy_free hfree, hservice]
  exact hspent.lt opening rfl

end Broker

namespace Cli

open Http (Client)

theorem connectClient_replies {config : Config} {w : World} {client : Client}
    (h : connectClient config w = .ok client) : client.replies = w.replies := by
  unfold connectClient Client.connectTo at h
  simp only at h
  split at h
  · cases h
    rfl
  · cases h

/-- The program has opened a session over HTTP, and its audit log. -/
structure Opens (config : Config) (w : World) (p : Progress) (b : Broker Client Float) :
    Prop where
  session : ∃ client, connectClient config w = .ok client ∧
    Broker.connect (setup config) client = .ok b
  log : ∃ log files, AuditLog.openAt config.auditPath p.files = (.ok log, files)

/-- **The rounds of a replay suffice:** it ends before they are used up. -/
theorem Opens.rounds_suffice {config : Config} {w : World} {p : Progress}
    {b : Broker Client Float} (h : Opens config w p b) (plan : Plan Float)
    (options : RunOptions) : (replay plan options (rounds w) b).outcome ≠ none := by
  obtain ⟨client, hclient, hopened⟩ := h.session
  refine Broker.repliesLeft_dwindles.advance_ends plan options (rounds w) _ _ ?_
  have hless := Broker.connect_repliesLeft hopened
  rw [connectClient_replies hclient] at hless
  show b.repliesLeft < w.replies.length + 2
  omega

/-- A program run that has opened its session comes to what the replay comes to, and there is
something that it comes to. -/
theorem Opens.ended {config : Config} {w : World} {p : Progress} {b : Broker Client Float}
    (h : Opens config w p b) (planFile : String) (plan : Plan Float) :
    ∃ outcome, (replay plan ⟨planFile, config.run.maxTicks, config.run.maxTickRetries⟩
        (rounds w) b).outcome = some outcome ∧
      (replayPlan config planFile plan w p).1 = (outcome.map fun _ => ()).mapError .broker := by
  obtain ⟨outcome, houtcome⟩ := Option.ne_none_iff_exists'.mp (h.rounds_suffice plan _)
  obtain ⟨⟨client, hclient, hopened⟩, log, files, hlog⟩ := h
  refine ⟨outcome, houtcome, ?_⟩
  unfold replayPlan
  simp only [hclient, hopened, hlog]
  rw [houtcome]
  cases outcome <;> rfl

/-- A program run that does not open its session, or its audit log, fails. -/
theorem opens_of_ok {config : Config} {planFile : String} {plan : Plan Float} {w : World}
    {p : Progress} (h : (replayPlan config planFile plan w p).1 = .ok ()) :
    ∃ b, Opens config w p b := by
  unfold replayPlan at h
  cases hclient : connectClient config w with
  | error fault =>
    rw [hclient] at h
    cases h
  | ok client =>
    cases hopened : Broker.connect (setup config) client with
    | error fault =>
      simp only [hclient, hopened] at h
      cases h
    | ok b =>
      rcases hlog : AuditLog.openAt config.auditPath p.files with ⟨fault | log, files⟩
      · simp only [hclient, hopened, hlog] at h
        cases h
      · exact ⟨b, ⟨client, hclient, hopened⟩, log, files, hlog⟩

theorem exitCode_eq_zero_iff (p : Progress) (ended : Except RunFault Unit) :
    (p.outcome ended).exitCode = 0 ↔ ended = .ok () := by
  cases ended with
  | ok _ => exact ⟨fun _ => rfl, fun _ => rfl⟩
  | error fault =>
    refine ⟨fun h => ?_, fun h => by cases h⟩
    have hcode : fault.exitCode = 0 := h
    unfold RunFault.exitCode at hcode
    split at hcode <;> cases hcode

/-- **A program run exits with zero if and only if its replay is completed,** and with the code
of the fault if the replay fails. -/
theorem replayPlan_exit (config : Config) (planFile : String) (plan : Plan Float) (w : World)
    (p : Progress) :
    let ended := replayPlan config planFile plan w p
    let replayed := replay plan ⟨planFile, config.run.maxTicks, config.run.maxTickRetries⟩ (rounds w)
    ((ended.2.outcome ended.1).exitCode = 0 ↔
      ∃ b summary, Opens config w p b ∧ (replayed b).outcome = some (.ok summary)) ∧
    ∀ b fault, Opens config w p b → (replayed b).outcome = some (.error fault) →
      (ended.2.outcome ended.1).exitCode = (RunFault.broker fault).exitCode := by
  intro ended replayed
  refine ⟨(exitCode_eq_zero_iff _ _).trans ⟨fun h => ?_, ?_⟩, fun b fault hopens h => ?_⟩
  · obtain ⟨b, hopens⟩ := opens_of_ok h
    obtain ⟨outcome, houtcome, hended⟩ := hopens.ended planFile plan
    cases outcome with
    | ok summary => exact ⟨b, summary, hopens, houtcome⟩
    | error fault =>
      rw [show (replayPlan config planFile plan w p).1 = .ok () from h] at hended
      cases hended
  · rintro ⟨b, summary, hopens, h⟩
    obtain ⟨outcome, houtcome, hended⟩ := hopens.ended planFile plan
    obtain rfl : outcome = .ok summary := Option.some.inj (houtcome.symm.trans h)
    exact hended
  · obtain ⟨outcome, houtcome, hended⟩ := hopens.ended planFile plan
    obtain rfl : outcome = .error fault := Option.some.inj (houtcome.symm.trans h)
    rw [show ended.1 = .error (.broker fault) from hended]
    rfl

end Cli
end Brokerage
