/-
# How many ticks there are

What a scripted service can still bring is a number (`ScriptedService.left`): the replies
of its script, their items, and the failures that are queued. A tick before the end of the
session uses up a failure, a reply or an item, or it ends the session
(`Broker.ticksLeft_tick`). So whatever fails on the way, a broker that is ticked often
enough is finished. At any other service a replay may never come to the end, but its
options limit the rounds, and the retries limit the ticks of a round
(`Broker.length_rounds_le`, `Broker.length_outcomes_round_le`).

Key definitions: `StepReply.size`, `ScriptedService.left`, `Broker.heldSize`,
`Broker.ticksLeft`.
Key theorems: `Broker.ticksLeft_tick`, `Broker.ticksLeft_after`,
`Broker.length_outcomes_rounds_le`, `Broker.advance_stops`, `Broker.ticks_limited`.
-/
import Mathlib.Algebra.Group.Action.Defs
import Mathlib.Algebra.Order.BigOperators.Group.List
import Mathlib.Algebra.Order.Group.Nat
import Brokerage.Proofs.Attempts
import Brokerage.Proofs.Ending
import Brokerage.Proofs.LastStep

namespace Brokerage

variable {σ α : Type} [Amount α]

namespace StepReply

/-- The number of items that a reply tells. -/
def size (r : StepReply α) : Nat :=
  r.executed.length + r.inserted.length

theorem length_items {r : StepReply α} {step : Step α} (h : r.check = .ok step) :
    step.items.length = r.size := by
  obtain ⟨-, hinserted, hstep⟩ := check_ok h
  have hexecuted : step.executed = r.executed := by rw [hstep]
  unfold Step.items size
  rw [List.length_append, List.length_map, List.length_map, hexecuted, hinserted,
    List.length_map]

end StepReply

/-! ### A scripted service -/

namespace ScriptedService

/-- What a service can still bring: replies, their items, and failures. -/
def left (s : ScriptedService α) : Nat :=
  s.script.length + (s.script.map StepReply.size).sum +
    (s.submitFaults.length + s.stepFaults.length)

/-- A batch is taken, or a failure is used up. -/
theorem submit_left (orders : List (Order α)) (s : ScriptedService α) :
    match s.submit s.session orders with
    | (.error _, t) => t.session = s.session ∧ t.left < s.left
    | (.ok (), t) => t.session = s.session ∧ t.left = s.left := by
  unfold submit forSession
  rw [if_pos rfl]
  cases hfaults : s.submitFaults with
  | nil =>
    refine ⟨rfl, ?_⟩
    unfold left
    rw [hfaults]
  | cons fault faults =>
    refine ⟨rfl, ?_⟩
    unfold left
    rw [hfaults, List.length_cons]
    simp only
    omega

/-- A reply is used up, or a failure is; once the script is used up, there is only the
last reply. -/
theorem nextStep_left (s : ScriptedService α) :
    match s.nextStep s.session with
    | (.error _, t) => t.session = s.session ∧ t.left < s.left
    | (.ok reply, t) => t.session = s.session ∧
      (t.left + (reply.size + 1) = s.left ∨ (t.left = s.left ∧ reply = .last)) := by
  unfold nextStep forSession
  rw [if_pos rfl]
  cases hfaults : s.stepFaults with
  | cons fault faults =>
    refine ⟨rfl, ?_⟩
    unfold left
    rw [hfaults, List.length_cons]
    simp only
    omega
  | nil =>
    unfold nextReply
    cases hscript : s.script with
    | nil =>
      refine ⟨rfl, .inr ⟨?_, rfl⟩⟩
      unfold left
      rw [hscript, hfaults]
    | cons reply script =>
      refine ⟨rfl, .inl ?_⟩
      unfold left
      rw [hscript, hfaults, List.length_cons, List.map_cons, List.sum_cons]
      simp only
      omega

end ScriptedService

namespace Broker

/-- How much is left of a step that is held. -/
def heldSize (b : Broker σ α) : Nat :=
  match b.held with
  | none => 0
  | some step => step.items.length + 1

/-- Applying a step leaves less of it, and nothing if it is an empty last step. -/
theorem applyStep_left {b : Broker σ α} (hfree : b.held = none) (step : Step α)
    (report : TickReport α) : (b.applyStep step report).2.heldSize < step.items.length + 1 ∧
      (step.items = [] → step.hasNext = false → (b.applyStep step report).2.finished = true) := by
  rcases b.applyStep_cases step report with
    ⟨done, i, rest, cause, c, hitems, hf, hs, ha⟩ | ⟨c, hf, ha⟩
  · have hrest : (step.keeping rest).items = rest :=
      Step.items_keeping (hitems ▸ (List.sublist_cons_self i rest).trans
        (List.sublist_append_right done _))
    rw [ha]
    constructor
    · show (step.keeping rest).items.length + 1 < _
      rw [hrest, hitems, List.length_append, List.length_cons]
      omega
    · intro hnone
      rw [hnone] at hitems
      exact absurd hitems.symm (List.append_ne_nil_of_right_ne_nil _ (List.cons_ne_nil _ _))
  · have hheld : c.held = none := (feed_frame hf).held.trans hfree
    have hkept := c.conclude_keeps (·.held) (fun _ _ _ _ _ _ _ => rfl) step
      { report with executed := step.executed, inserted := step.inserted.map (·.1) }
    rw [ha]
    constructor
    · unfold heldSize
      rw [hkept, hheld]
      exact Nat.succ_pos _
    · intro _ hlast
      rcases c.conclude_cases step _ with ⟨-, hc⟩ | ⟨hmore, -⟩ | ⟨hmore, -⟩
      · rw [hc]
        rfl
      · rw [hlast] at hmore
        cases hmore
      · rw [hlast] at hmore
        cases hmore

/-- Bounds the ticks until the session is finished. -/
def ticksLeft (b : Broker (ScriptedService α) α) : Nat :=
  if b.finished then 0 else b.service.left + b.heldSize + 1

/-- The broker is at the session of its service. -/
def AtHome (b : Broker (ScriptedService α) α) : Prop :=
  b.session = b.service.session

theorem submission_left {b : Broker (ScriptedService α) α} (hhome : b.AtHome) :
    match b.submission with
    | (.error _, t) => t.session = b.session ∧ t.left < b.service.left
    | (.ok (), t) => t.session = b.session ∧ t.left = b.service.left := by
  have hsubmit := b.service.submit_left b.sifted.accepted
  unfold AtHome at hhome
  rw [← hhome] at hsubmit
  unfold submission
  cases b.sifted.accepted.isEmpty with
  | true => exact ⟨hhome.symm, rfl⟩
  | false => exact hsubmit

/-- A tick that gets no step has used up a failure or a reply. The step that is due has
taken as much from what is left as it has items, and one more, unless there is no reply
left. -/
theorem due_left {b : Broker (ScriptedService α) α} (hactive : b.finished = false)
    (hhome : b.AtHome) :
    match b.due with
    | (.error _, c) => c.AtHome ∧ c.service.left + c.heldSize < b.service.left + b.heldSize
    | (.ok (step, _), c) => c.AtHome ∧
      (c.service.left + (step.items.length + 1) = b.service.left + b.heldSize ∨
        (c.service.left ≤ b.service.left ∧ step.items = [] ∧ step.hasNext = false)) := by
  cases hheld : b.held with
  | some step =>
    have hsize : b.heldSize = step.items.length + 1 := by
      unfold heldSize
      rw [hheld]
    rw [due_resumed hactive hheld, hsize]
    exact ⟨hhome, .inl rfl⟩
  | none =>
    have hsize : b.heldSize = 0 := by
      unfold heldSize
      rw [hheld]
    have hsubmission := submission_left hhome
    unfold due
    rw [hactive, hheld, hsize]
    simp only [Bool.false_eq_true, if_false]
    rcases hs : b.submission with ⟨fault | _, t⟩ <;> rw [hs] at hsubmission
    · obtain ⟨hsession, hless⟩ := hsubmission
      refine ⟨hsession.symm, ?_⟩
      show t.left + b.heldSize < _
      rw [hsize]
      exact hless
    · obtain ⟨hsession, hleft⟩ := hsubmission
      have hnext := t.nextStep_left
      rw [hsession] at hnext
      simp only
      rcases hn : Service.nextStep (α := α) b.session t with ⟨fault | reply, u⟩
      · rw [show t.nextStep b.session = (.error fault, u) from hn] at hnext
        refine ⟨hnext.1.symm, ?_⟩
        show u.left + b.heldSize < _
        rw [hsize, ← hleft]
        exact hnext.2
      · rw [show t.nextStep b.session = (.ok reply, u) from hn] at hnext
        obtain ⟨hopen, hused⟩ := hnext
        simp only
        cases hcheck : reply.check with
        | error defect =>
          refine ⟨hopen.symm, ?_⟩
          show u.left + b.heldSize < _
          rcases hused with hused | ⟨-, rfl⟩
          · omega
          · cases hcheck
        | ok step =>
          refine ⟨hopen.symm, ?_⟩
          show u.left + _ = _ ∨ u.left ≤ _ ∧ _
          rcases hused with hused | ⟨hused, rfl⟩
          · rw [StepReply.length_items hcheck]
            exact .inl (by omega)
          · cases hcheck
            exact .inr ⟨by omega, rfl, rfl⟩

/-- **Every tick before the end uses something up.** -/
theorem ticksLeft_tick {b : Broker (ScriptedService α) α} (hhome : b.AtHome) :
    b.tick.2.AtHome ∧ b.tick.2.ticksLeft ≤ b.ticksLeft - 1 := by
  cases hactive : b.finished with
  | true =>
    have hnone : b.ticksLeft = 0 := by
      unfold ticksLeft
      rw [hactive]
      rfl
    rw [tick_eq, due_finished hactive, hnone]
    exact ⟨hhome, Nat.zero_le _⟩
  | false =>
    have hsome : b.ticksLeft = b.service.left + b.heldSize + 1 := by
      unfold ticksLeft
      rw [hactive]
      rfl
    have hle : ∀ c : Broker (ScriptedService α) α,
        c.ticksLeft ≤ c.service.left + c.heldSize + 1 := by
      intro c
      unfold ticksLeft
      split
      · exact Nat.zero_le _
      · exact Nat.le_refl _
    have hdue := due_left hactive hhome
    rw [hsome, tick_eq]
    rcases hd : b.due with ⟨fault | ⟨step, report⟩, c⟩
    · rw [hd] at hdue
      have hc := hle c
      simp only
      exact ⟨hdue.1, by omega⟩
    · rw [hd] at hdue
      obtain ⟨hchome, hleft⟩ := hdue
      obtain ⟨hsize, hlast⟩ := applyStep_left (due_held hd) step report
      have hkept := c.applyStep_keeps (fun b => (b.session, b.service))
        (fun _ _ i => by cases i <;> rfl) (fun _ _ => rfl)
        (fun b step report => b.conclude_keeps (fun b => (b.session, b.service))
          (fun _ _ _ _ _ _ _ => rfl) step report) step report
      obtain ⟨hsession, hservice⟩ := Prod.mk.inj hkept
      refine ⟨?_, ?_⟩
      · show (c.applyStep step report).2.session = (c.applyStep step report).2.service.session
        rw [hsession, hservice]
        exact hchome
      · have hc := hle (c.applyStep step report).2
        rw [hservice] at hc
        simp only
        rcases hleft with hleft | ⟨hleft, hnone, hends⟩
        · omega
        · have hzero : (c.applyStep step report).2.ticksLeft = 0 := by
            unfold ticksLeft
            rw [hlast hnone hends]
            rfl
          omega

/-- **A run leaves as many ticks less as it makes.** -/
theorem ticksLeft_after : ∀ (calls : List (Call α)) {b : Broker (ScriptedService α) α},
    b.AtHome → (b.after calls).ticksLeft ≤ b.ticksLeft - (b.outcomes calls).length
  | [], _, _ => Nat.le_refl _
  | .insert order :: calls, b, hhome => by
    have hsame : (b.insert order).2.AtHome ∧ (b.insert order).2.ticksLeft = b.ticksLeft := by
      rcases b.insert_eq order with h | h <;> rw [h]
      · exact ⟨hhome, rfl⟩
      · exact ⟨hhome, rfl⟩
    rw [← hsame.2]
    exact ticksLeft_after calls hsame.1
  | .tick :: calls, b, hhome => by
    obtain ⟨hstays, hless⟩ := ticksLeft_tick hhome
    have ih := ticksLeft_after calls hstays
    rw [outcomes_tick, List.length_cons]
    show (b.tick.2.after calls).ticksLeft ≤ _
    omega

/-- A session that is opened has all its replies and failures before it. -/
theorem connect_left {setup : Setup α} {service : ScriptedService α}
    {b : Broker (ScriptedService α) α} (h : connect setup service = .ok b) :
    b.AtHome ∧ b.ticksLeft = service.left + 1 := by
  unfold connect at h
  cases hs : checkSetup setup with
  | error fault => rw [hs] at h; cases h
  | ok checked =>
    obtain ⟨cash, request⟩ := checked
    rw [hs] at h
    have hopening : Service.openSession request service = service.openSession request := rfl
    unfold ScriptedService.openSession at hopening
    cases hfault : service.openingFault with
    | some fault =>
      rw [hfault] at hopening
      simp only [hopening] at h
      cases h
    | none =>
      rw [hfault] at hopening
      simp only [hopening] at h
      cases h
      exact ⟨rfl, rfl⟩

/-- The session is finished when no tick is left. -/
theorem finished_of_ticksLeft {b : Broker (ScriptedService α) α} (h : b.ticksLeft = 0) :
    b.finished = true := by
  unfold ticksLeft at h
  cases hactive : b.finished with
  | true => rfl
  | false =>
    rw [hactive] at h
    cases h

/-! ### A replay at any service -/

section

variable [Service σ α] {plan : Plan α} {options : RunOptions}

/-- A round has one tick more than it may try again, at most. -/
theorem length_outcomes_round_le (step : Nat) {b : Broker σ α} (hactive : b.finished = false) :
    (b.outcomes (b.round plan options step).calls).length ≤ options.maxTickRetries + 1 := by
  obtain ⟨before, hcalls, -, hle, -⟩ := round_last plan options step hactive
  rw [hcalls, outcomes_append, List.length_append]
  exact Nat.add_le_add_right hle 1

omit [Service σ α] in
theorem step_lt_of_going {ticks step : Nat} {b : Broker σ α} (hmax : options.maxTicks = some ticks)
    (h : (b.finished || options.maxTicks.any (· ≤ step)) = false) : step < ticks := by
  obtain ⟨-, hstop⟩ := Bool.or_eq_false_iff.mp h
  rw [hmax, Option.any_some] at hstop
  exact Nat.lt_of_not_le (of_decide_eq_false hstop)

/-- There are no more rounds than ticks are left to take. -/
theorem length_rounds_le {ticks : Nat} (hmax : options.maxTicks = some ticks) :
    ∀ (limit step : Nat) (b : Broker σ α),
      (b.rounds plan options limit step).length ≤ ticks - step
  | 0, _, _ => Nat.zero_le _
  | limit + 1, step, b => by
    cases hgo : b.finished || options.maxTicks.any (· ≤ step) with
    | true =>
      rw [rounds, hgo]
      exact Nat.zero_le _
    | false =>
      have hmore := step_lt_of_going hmax hgo
      rw [rounds_active limit hgo, List.length_cons]
      cases (b.round plan options step).outcome with
      | error fault =>
        show 0 + 1 ≤ _
        omega
      | ok report =>
        have ih := length_rounds_le hmax limit (step + 1) (b.round plan options step).finish
        simp only
        omega

/-- The ticks of a replay are those of its rounds. -/
theorem outcomes_rounds (limit step : Nat) (b : Broker σ α) :
    b.outcomes (callsOf (b.rounds plan options limit step)) =
      (b.rounds plan options limit step).flatMap fun round =>
        round.start.outcomes round.calls := by
  unfold outcomes answers
  rw [gather_rounds, List.filterMap_flatMap]

theorem length_outcomes_rounds_le {ticks : Nat} (hmax : options.maxTicks = some ticks)
    (limit : Nat) (b : Broker σ α) :
    (b.outcomes (callsOf (b.rounds plan options limit 0))).length ≤
      ticks * (options.maxTickRetries + 1) := by
  have hround : ∀ n ∈ (b.rounds plan options limit 0).map
      (fun round => (round.start.outcomes round.calls).length), n ≤ options.maxTickRetries + 1 := by
    intro n hn
    obtain ⟨round, hmem, rfl⟩ := List.mem_map.mp hn
    obtain ⟨step, start, hactive, rfl⟩ := round_of_mem hmem
    exact length_outcomes_round_le step hactive
  have hrounds : (b.rounds plan options limit 0).length ≤ ticks := length_rounds_le hmax limit 0 b
  rw [outcomes_rounds, List.length_flatMap]
  calc ((b.rounds plan options limit 0).map _).sum
      ≤ (b.rounds plan options limit 0).length * (options.maxTickRetries + 1) := by
        have hsum := List.sum_le_card_nsmul _ _ hround
        rwa [List.length_map, smul_eq_mul] at hsum
    _ ≤ ticks * (options.maxTickRetries + 1) := Nat.mul_le_mul_right _ hrounds

/-- A replay with more rounds than ticks to take has an outcome. -/
theorem advance_stops {ticks : Nat} (hmax : options.maxTicks = some ticks) :
    ∀ (limit : Nat) (s : RunSummary α) (run : Run σ α), ticks - s.ticks < limit →
      (run.advance plan options limit s).outcome ≠ none
  | 0, _, _, h => absurd h (Nat.not_lt_zero _)
  | limit + 1, s, run, h => by
    cases hgo : run.broker.finished || options.maxTicks.any (· ≤ s.ticks) with
    | true =>
      obtain ⟨notes, hdone⟩ := advance_over plan options limit s run hgo
      rw [hdone]
      exact Option.some_ne_none _
    | false =>
      have hmore := step_lt_of_going hmax hgo
      obtain ⟨notes, hdone⟩ := advance_round plan options limit s run hgo
      rw [hdone]
      cases (run.broker.round plan options s.ticks).outcome with
      | error fault => exact Option.some_ne_none _
      | ok report =>
        refine advance_stops hmax limit _ _ ?_
        show ticks - (s.ticks + 1) < limit
        omega

end

/-- **Ticks come to an end.** A session at a scripted service is finished after as many
ticks as there are replies, items of them and queued failures, and one more, whatever the
replies are, however the ticks end and whatever is inserted between them. At any service
whatever, a replay that may take `ticks` ticks makes so many rounds at most, each with no
more than one tick beyond the retries, and it has an outcome if it is given more rounds
than that. -/
theorem ticks_limited :
    (∀ {setup : Setup α} {service : ScriptedService α} {b : Broker (ScriptedService α) α},
      connect setup service = .ok b → ∀ calls : List (Call α),
        service.script.length + 1 +
            (service.script.map fun r => r.executed.length + r.inserted.length).sum +
            (service.submitFaults.length + service.stepFaults.length) ≤
          (b.outcomes calls).length →
        (b.after calls).finished = true) ∧
    (∀ {σ : Type} [Service σ α] (plan : Plan α) (options : RunOptions) (ticks limit : Nat)
        (b : Broker σ α), options.maxTicks = some ticks →
      let rounds := b.rounds plan options limit 0
      let done := replay plan options limit b
      done.broker = b.after (callsOf rounds) ∧
        (b.outcomes (callsOf rounds)).length ≤ ticks * (options.maxTickRetries + 1) ∧
        (ticks < limit → done.outcome ≠ none)) := by
  constructor
  · intro setup service b h calls hticks
    obtain ⟨hhome, hleft⟩ := connect_left h
    have hafter := ticksLeft_after calls hhome
    have hsize : service.left = service.script.length +
        (service.script.map fun r => r.executed.length + r.inserted.length).sum +
          (service.submitFaults.length + service.stepFaults.length) := rfl
    exact finished_of_ticksLeft (by omega)
  · intro σ _ plan options ticks limit b hmax
    obtain ⟨hbroker, -⟩ := replay_rounds plan options limit b
    refine ⟨hbroker, length_outcomes_rounds_le hmax limit b, fun hlimit => ?_⟩
    exact advance_stops hmax limit _ _ hlimit

/-- One reply with one item: three ticks are enough. -/
theorem sample_ticks_limited :
    (sampleOverdrawn.after [.tick, .insert sampleOrder, .tick, .tick]).finished = true ∧
      (sampleOverdrawn.outcomes
        (callsOf (sampleOverdrawn.rounds ⟨[]⟩ ⟨"plan", some 1, 2⟩ 2 0))).length ≤ 3 := by
  obtain ⟨hscripted, hreplayed⟩ := ticks_limited (α := Rat)
  refine ⟨hscripted connect_overdrawn _ (by decide +kernel), ?_⟩
  exact (hreplayed ⟨[]⟩ ⟨"plan", some 1, 2⟩ 1 2 sampleOverdrawn rfl).2.1

end Broker
end Brokerage
