/-
# A replay ends

What brings a replay to its end is a number that every completed tick lowers and that no
insertion and no lost tick raises (`Broker.Dwindles`): the tick that ends a round lowers it,
however often the round has tried again, so a replay has an outcome if it is given more
rounds than the number says (`Broker.Dwindles.advance_ends`).

At a service whose replies run out the number is what the service has left, and one more
while a step is held (`Broker.Lasting.dwindles`). A scripted service never runs out of
replies, but once its script is used up the reply is the last, so there the number is that of
the steps left (`Broker.stepsLeft_dwindles`).

Key definitions: `Broker.Dwindles`, `Broker.Lasting`, `Broker.leftBy`, `Broker.stepsLeft`.
Key theorems: `Broker.Dwindles.advance_ends`, `Broker.applyStep_completed`,
`Broker.Lasting.dwindles`, `Broker.stepsLeft_dwindles`.
-/
import Brokerage.Proofs.Reply
import Brokerage.Proofs.Rounds
import Brokerage.Scripted

namespace Brokerage

variable {α : Type} [Amount α]

namespace Broker

section

variable {σ : Type}

/-- What is left to come at most: what the service has left, and a step that is held. -/
def leftBy (size : σ → Nat) (b : Broker σ α) : Nat :=
  size b.service + if b.held.isSome then 1 else 0

theorem leftBy_free {size : σ → Nat} {b : Broker σ α} (hfree : b.held = none) :
    leftBy size b = size b.service := by
  unfold leftBy
  rw [hfree]
  rfl

/-- A step that was completed leaves the service alone and nothing held, and it ends the
session if it was the last. -/
theorem applyStep_completed {b : Broker σ α} {step : Step α} {report done : TickReport α}
    (h : (b.applyStep step report).1 = .ok done) :
    (b.applyStep step report).2.service = b.service ∧
      (b.applyStep step report).2.held = b.held ∧
      (step.hasNext = false → (b.applyStep step report).2.finished = true) := by
  obtain ⟨c, hfeed, -, -, -, -, hend⟩ := applyStep_ok h
  have hframe := feed_frame hfeed
  rcases hend with ⟨-, -, hdone⟩ | ⟨hnext, -, value, -, hdone⟩
  · rw [hdone]
    exact ⟨hframe.service, hframe.held, fun _ => rfl⟩
  · rw [hdone]
    exact ⟨hframe.service, hframe.held, fun hlast => by rw [hnext] at hlast; cases hlast⟩

variable [Service σ α]

/-! ### A number that goes down -/

variable {left : Broker σ α → Nat}

/-- Every completed tick lowers the number; no insertion changes it, and no lost tick raises
it. -/
structure Dwindles (left : Broker σ α → Nat) : Prop where
  inserted : ∀ (b : Broker σ α) (pending : List (Order α)),
    left (b.recast b.service pending) = left b
  completed : ∀ {b : Broker σ α} {report : TickReport α}, b.tick.1 = .ok report →
    left b.tick.2 < left b
  lost : ∀ {b : Broker σ α}, unanswered b.tick.1 = true → left b.tick.2 ≤ left b

theorem Dwindles.inserts (h : Dwindles left) (orders : List (Order α)) {b : Broker σ α}
    (hactive : b.finished = false) : left (b.after (orders.map .insert)) = left b := by
  obtain ⟨hafter, -⟩ := after_inserts orders hactive
  rw [hafter]
  exact h.inserted b _

/-- A tick that is completed in the end has lowered the number, for the attempts before it
were lost. -/
theorem Dwindles.retrying (h : Dwindles left) (limit : Nat) : ∀ (retries : Nat)
    {b : Broker σ α} {report : TickReport α}, (tickRetrying limit retries b).1 = .ok report →
      left (tickRetrying limit retries b).2.1 < left b
  | 0, b, report, hdone => by
    rw [tickRetrying_zero] at hdone ⊢
    exact h.completed hdone
  | retries + 1, b, report, hdone => by
    cases hlost : unanswered b.tick.1 with
    | false =>
      rw [tickRetrying_answered limit (retries + 1) hlost] at hdone ⊢
      exact h.completed hdone
    | true =>
      obtain ⟨note, hretried⟩ := tickRetrying_unanswered limit retries hlost
      rw [hretried] at hdone ⊢
      have hless := h.retrying limit retries hdone
      rw [h.inserts _ (active_of_unanswered hlost)] at hless
      exact Nat.lt_of_lt_of_le hless (h.lost hlost)

/-- **A replay ends** if it has more rounds than the number says. -/
theorem Dwindles.advance_ends (h : Dwindles left) (plan : Plan α) (options : RunOptions) :
    ∀ (limit : Nat) (s : RunSummary α) (run : Run σ α), left run.broker < limit →
      (run.advance plan options limit s).outcome ≠ none
  | 0, _, _, hlimit => absurd hlimit (Nat.not_lt_zero _)
  | limit + 1, s, run, hlimit => by
    cases hgo : run.broker.finished || options.maxTicks.any (· ≤ s.ticks) with
    | true =>
      obtain ⟨notes, hdone⟩ := advance_over plan options limit s run hgo
      rw [hdone]
      exact Option.some_ne_none _
    | false =>
      obtain ⟨hactive, -⟩ := Bool.or_eq_false_iff.mp hgo
      obtain ⟨notes, hdone⟩ := advance_round plan options limit s run hgo
      rw [hdone]
      cases ho : (run.broker.round plan options s.ticks).outcome with
      | error fault => exact Option.some_ne_none _
      | ok report =>
        have hless := h.retrying options.maxTickRetries options.maxTickRetries ho
        rw [← finish_round, h.inserts _ hactive] at hless
        exact h.advance_ends plan options limit _ _
          (Nat.lt_of_lt_of_le hless (Nat.le_of_lt_succ hlimit))

/-! ### What a service has left -/

/-- A measure of the service that no order and no question for a step raises. -/
structure Lasting (size : σ → Nat) : Prop where
  submit : ∀ session (orders : List (Order α)) s,
    size (Service.submit session orders s).2 ≤ size s
  next : ∀ session s, size (Service.nextStep (α := α) session s).2 ≤ size s

variable {size : σ → Nat}

theorem Lasting.submission_le (h : Lasting (α := α) size) (b : Broker σ α) :
    size b.submission.2 ≤ size b.service := by
  unfold submission
  split
  · exact Nat.le_refl _
  · exact h.submit _ _ _

theorem Lasting.reply_le (h : Lasting (α := α) size) (b : Broker σ α) :
    size b.reply.2 ≤ size b.service := by
  have hle := h.submission_le b
  unfold reply
  rcases hs : b.submission with ⟨cause | _, s⟩
  · rw [hs] at hle
    exact hle
  · rw [hs] at hle
    have hless := h.next b.session s
    simp only
    rcases hn : Service.nextStep (α := α) b.session s with ⟨cause | reply, t⟩
    all_goals
      rw [hn] at hless
      exact Nat.le_trans hless hle

/-- A completed tick takes a reply, or the step that was held. -/
theorem Lasting.completed (h : Lasting (α := α) size)
    (hreply : ∀ session s (reply : StepReply α), (Service.nextStep session s).1 = .ok reply →
      size (Service.nextStep (α := α) session s).2 < size s)
    {b : Broker σ α} {report : TickReport α} (hdone : b.tick.1 = .ok report) :
    leftBy size b.tick.2 < leftBy size b := by
  rw [tick_eq] at hdone ⊢
  rcases hd : b.due with ⟨fault | ⟨step, begun⟩, c⟩
  · rw [hd] at hdone
    cases hdone
  · rw [hd] at hdone
    obtain ⟨hservice, hheld, -⟩ := applyStep_completed hdone
    simp only
    rw [leftBy_free (hheld.trans (due_held hd)), hservice]
    rcases due_ok hd with ⟨-, ⟨hsome, -, rfl⟩ | ⟨hnone, -, reply, s, hdelivery, -, rfl⟩⟩
    · unfold leftBy
      rw [hsome]
      exact Nat.lt_succ_self _
    · obtain ⟨t, hsubmission, hnext⟩ := submission_of_delivery hdelivery
      have hle := h.submission_le b
      have hless := hreply b.session t reply (congrArg Prod.fst hnext)
      rw [hsubmission] at hle
      rw [hnext] at hless
      rw [leftBy_free hnone]
      exact Nat.lt_of_lt_of_le hless hle

/-- **A service whose replies run out** brings the session to its end. -/
theorem Lasting.dwindles (h : Lasting (α := α) size)
    (hreply : ∀ session s (reply : StepReply α), (Service.nextStep session s).1 = .ok reply →
      size (Service.nextStep (α := α) session s).2 < size s) :
    Dwindles (leftBy (α := α) size) where
  inserted _ _ := rfl
  completed := h.completed hreply
  lost {b} hlost := by
    obtain ⟨-, hfree, -, htick⟩ := tick_unanswered hlost
    rw [htick, leftBy_free hfree]
    exact Nat.le_trans (Nat.le_of_eq (leftBy_free hfree)) (h.reply_le b)

end

end Broker

/-! ### A scripted service -/

namespace ScriptedService

theorem submit_script (session : SessionId) (orders : List (Order α)) (s : ScriptedService α) :
    (s.submit session orders).2.script = s.script := by
  unfold submit forSession
  split
  · split <;> rfl
  · rfl

/-- A request that is not answered leaves the script as it is; a reply is taken off
it, and once the script is used up the reply is the last. -/
theorem nextStep_script (session : SessionId) (s : ScriptedService α) :
    match s.nextStep session with
    | (.error _, t) => t.script = s.script
    | (.ok reply, t) =>
      t.script = s.script.tail ∧ (s.script = [] → reply.hasNext = false) := by
  unfold nextStep forSession
  by_cases hs : session = s.session
  · rw [if_pos hs]
    cases s.stepFaults with
    | cons fault faults => rfl
    | nil =>
      unfold nextReply
      cases hscript : s.script with
      | nil => exact ⟨rfl, fun _ => rfl⟩
      | cons reply script => exact ⟨rfl, fun h => by cases h⟩
  · rw [if_neg hs]

theorem lasting : Broker.Lasting (α := α) fun s : ScriptedService α => s.script.length where
  submit session orders s := Nat.le_of_eq (congrArg List.length (s.submit_script session orders))
  next session s := by
    have hscript := s.nextStep_script session
    show (s.nextStep session).2.script.length ≤ s.script.length
    rcases hn : s.nextStep session with ⟨fault | reply, t⟩
    · rw [hn] at hscript
      exact Nat.le_of_eq (congrArg List.length hscript)
    · rw [hn] at hscript
      rw [hscript.1, List.length_tail]
      exact Nat.sub_le _ _

end ScriptedService

namespace Broker

/-- How many ticks can be completed at most: one for a step that is held, one for each
reply of the script, and one more to end the session. -/
def stepsLeft (b : Broker (ScriptedService α) α) : Nat :=
  if b.finished then 0 else b.service.script.length + if b.held.isSome then 2 else 1

theorem stepsLeft_le {b : Broker (ScriptedService α) α} (hfree : b.held = none) :
    b.stepsLeft ≤ b.service.script.length + 1 := by
  unfold stepsLeft
  rw [hfree]
  split
  · exact Nat.zero_le _
  · exact Nat.le_refl _

theorem stepsLeft_fresh {b : Broker (ScriptedService α) α} (hactive : b.finished = false)
    (hfree : b.held = none) : b.stepsLeft = b.service.script.length + 1 := by
  unfold stepsLeft
  rw [hactive, hfree]
  rfl

theorem submission_script (b : Broker (ScriptedService α) α) :
    b.submission.2.script = b.service.script := by
  unfold submission
  split
  · rfl
  · exact ScriptedService.submit_script _ _ _

theorem delivery_script {b : Broker (ScriptedService α) α} {reply : StepReply α}
    {s : ScriptedService α} (h : b.delivery = (.ok reply, s)) :
    s.script = b.service.script.tail ∧ (b.service.script = [] → reply.hasNext = false) := by
  obtain ⟨t, hsubmission, hnext⟩ := submission_of_delivery h
  have hscript : t.script = b.service.script := by
    rw [← b.submission_script, hsubmission]
  have hreply := t.nextStep_script b.session
  rw [show t.nextStep b.session = (.ok reply, s) from hnext] at hreply
  rw [← hscript]
  exact hreply

/-- A completed tick uses a step up. -/
theorem stepsLeft_completed {b : Broker (ScriptedService α) α} {report : TickReport α}
    (h : b.tick.1 = .ok report) : b.tick.2.stepsLeft < b.stepsLeft := by
  rw [tick_eq] at h ⊢
  rcases hd : b.due with ⟨fault | ⟨step, begun⟩, c⟩
  · rw [hd] at h
    cases h
  · rw [hd] at h
    obtain ⟨hservice, hheld, hlast⟩ := applyStep_completed h
    have hle := stepsLeft_le (hheld.trans (due_held hd))
    rw [hservice] at hle
    rcases due_ok hd with ⟨hactive, ⟨hsome, -, rfl⟩ | ⟨hnone, -, reply, s, hdelivery, hcheck, rfl⟩⟩
    · have hsteps : b.stepsLeft = b.service.script.length + 2 := by
        unfold stepsLeft
        rw [hactive, hsome]
        rfl
      rw [hsteps]
      exact Nat.lt_succ_of_le hle
    · obtain ⟨hscript, hend⟩ := delivery_script hdelivery
      rw [stepsLeft_fresh hactive hnone]
      cases hs : b.service.script with
      | nil =>
        have hfinished := hlast (by rw [(StepReply.check_ok hcheck).2.2]; exact hend hs)
        unfold stepsLeft
        rw [hfinished]
        exact Nat.succ_pos _
      | cons first script =>
        refine Nat.lt_succ_of_le (Nat.le_trans hle ?_)
        show s.script.length + 1 ≤ _
        rw [hscript, hs]
        exact Nat.le_refl _

/-- **A scripted session comes to its end** step by step. -/
theorem stepsLeft_dwindles : Dwindles (stepsLeft (α := α)) where
  inserted _ _ := rfl
  completed := stepsLeft_completed
  lost {b} h := by
    obtain ⟨hactive, hfree, -, htick⟩ := tick_unanswered h
    have hle := ScriptedService.lasting.reply_le b
    rw [htick, stepsLeft_fresh hactive hfree]
    exact Nat.le_trans (Nat.le_of_eq (stepsLeft_fresh hactive hfree)) (Nat.succ_le_succ hle)

end Broker

end Brokerage
