/-
# Every planned order on its step

A replay comes to the steps one by one. At each of them it inserts the orders that are
planned for it, right before the first attempt at the tick, and after that only what an
attempt handed back (`Round.Planned`, `Broker.planned_rounds`). So the orders that it
brings up to a step are those of the plan up to that step, in the order of the plan
(`Broker.flatMap_opening`), and the batch that the service takes at a completed step is
made of those orders of the step to which the ledger does not object. No order is skipped,
repeated or moved, however many attempts are lost (`orders_reach_their_steps`).

Key definitions: `openingOrders`, `Round.opening`, `Round.batches`, `Round.Planned`.
Key theorems: `Broker.planned_round`, `Broker.planned_rounds`, `Broker.flatMap_opening`,
`Broker.replay_untaped`, `orders_reach_their_steps`.
-/
import Mathlib.Data.List.Induction
import Brokerage.Proofs.Accounting
import Brokerage.Proofs.Batches
import Brokerage.Proofs.PlanOrder
import Brokerage.Proofs.Validity

namespace Brokerage

variable {σ α : Type} [Amount α]

/-- The orders inserted before the first tick. -/
def openingOrders : List (Call α) → List (Order α)
  | .insert order :: calls => order :: openingOrders calls
  | _ => []

theorem openingOrders_inserts (calls : List (Call α)) : ∀ orders : List (Order α),
    openingOrders (orders.map .insert ++ .tick :: calls) = orders
  | [] => rfl
  | order :: orders => congrArg (order :: ·) (openingOrders_inserts calls orders)

open Submission (takenOf)

variable [Service σ α]

namespace Round

/-- The orders that a round brings before its first tick. -/
def opening (round : Round σ α) : List (Order α) :=
  openingOrders round.calls

/-- What the service is sent in a round. -/
def batches (round : Round σ α) : List (Submission α) :=
  (round.start.dispatches round.calls).flatMap (·.batches)

/-- The round is about the orders that are planned for its step, and no others. -/
structure Planned (plan : Plan α) (round : Round σ α) : Prop where
  /-- They are inserted right before the first attempt. -/
  calls : ∃ ticks, round.calls = (plan.ordersFor round.step).map .insert ++ ticks ∧
    (round.start.after ((plan.ordersFor round.step).map .insert)).Retries ticks round.outcome
  inserted : ∀ order, .insert order ∈ round.calls → order ∈ plan.ordersFor round.step
  /-- All attempts judge them by the ledger that the round started with. -/
  ledger : ∀ d ∈ round.start.dispatches round.calls, d.ledger = round.start.account.ledger
  /-- Once a tick is completed, the service has taken those to which the ledger does not
  object, in one batch, and nothing else. -/
  taken : ∀ report, round.outcome = .ok report → round.batches.filter (·.taken) =
    takenOf round.start.session ((plan.ordersFor round.step).filter fun order =>
      (round.start.account.ledger.refusal? order).isNone)

theorem Planned.opening_eq {plan : Plan α} {round : Round σ α} (h : round.Planned plan) :
    round.opening = plan.ordersFor round.step := by
  obtain ⟨ticks, hcalls, hretries⟩ := h.calls
  obtain ⟨later, rfl⟩ := hretries.first
  rw [opening, hcalls]
  exact openingOrders_inserts later _

end Round

namespace Broker

variable (plan : Plan α) (options : RunOptions)

/-! ### The rounds -/

/-- What a round dispatches its attempts dispatch. -/
theorem dispatches_round (step : Nat) (b : Broker σ α) :
    b.dispatches (b.round plan options step).calls =
      let opened := b.after ((plan.ordersFor step).map .insert)
      opened.dispatches (opened.attempts options.maxTickRetries) := by
  have hnone : gather dispatch b ((plan.ordersFor step).map .insert) = [] :=
    dispatches_inserts (plan.ordersFor step) b
  show gather dispatch b (_ ++ _) = _
  rw [gather_append, hnone]
  rfl

/-- **A round that starts with nothing pending or held** is about the orders of its step,
and leaves nothing pending or held if it is completed. -/
theorem planned_round (step : Nat) {b : Broker σ α} (hactive : b.finished = false)
    (hempty : b.account.blotter.pending = []) (hfree : b.held = none) :
    let round := b.round plan options step
    round.Planned plan ∧ ∀ report, round.outcome = .ok report →
      round.finish.account.blotter.pending = [] ∧ round.finish.held = none := by
  intro round
  obtain ⟨hopened, -⟩ := after_inserts (plan.ordersFor step) hactive
  rw [hempty, List.nil_append] at hopened
  have hretries := retries_attempts options.maxTickRetries options.maxTickRetries
    (b.after ((plan.ordersFor step).map .insert))
  have hdispatches := dispatches_round plan options step b
  have hpending : (b.after ((plan.ordersFor step).map .insert)).account.blotter.pending =
      plan.ordersFor step := by rw [hopened]; rfl
  have hledger : (b.after ((plan.ordersFor step).map .insert)).account.ledger =
      b.account.ledger := by rw [hopened]; rfl
  have hheld : (b.after ((plan.ordersFor step).map .insert)).held = none := by
    rw [hopened]; exact hfree
  refine ⟨⟨⟨_, rfl, hretries⟩, fun order hmem => ?_, fun d hd => ?_, fun report hdone => ?_⟩,
    fun report hdone => ?_⟩
  · rcases List.mem_append.mp hmem with hplanned | hagain
    · obtain ⟨_, hplanned, heq⟩ := List.mem_map.mp hplanned
      cases heq
      exact hplanned
    · have hmem := hretries.inserted order hagain
      rw [hpending] at hmem
      exact hmem
  · have hd : d ∈ b.dispatches (b.round plan options step).calls := hd
    rw [hdispatches] at hd
    exact (hretries.ledger d hd).trans hledger
  · obtain ⟨htaken, -⟩ := hretries.taken hheld hdone
    show ((b.dispatches (b.round plan options step).calls).flatMap _).filter _ = _
    rw [hdispatches, htaken, hopened]
    rfl
  · obtain ⟨-, hafter⟩ := hretries.taken hheld hdone
    rw [← after_append] at hafter
    exact hafter

/-- **The rounds of a replay** are about the orders of their steps. They come one after the
other, and only the last can fail to be completed. -/
theorem planned_rounds (limit step : Nat) {b : Broker σ α}
    (hempty : b.account.blotter.pending = []) (hfree : b.held = none)
    {before : List (Round σ α)} {round : Round σ α} {after : List (Round σ α)}
    (h : b.rounds plan options limit step = before ++ round :: after) :
    (∀ earlier ∈ before, ∃ report, earlier.outcome = .ok report) ∧
      round.step = step + before.length ∧ round.start = b.after (callsOf before) ∧
      round.Planned plan := by
  -- No order waits and no step is held when a round starts.
  obtain ⟨⟨hactive, ⟨hempty, hfree⟩, hself⟩, hdone, hstart, -⟩ :=
    rounds_split (P := fun b => b.account.blotter.pending = [] ∧ b.held = none)
      (fun step _ hactive hclear => (planned_round plan options step hactive hclear.1 hclear.2).2)
      ⟨hempty, hfree⟩ h
  obtain ⟨hplanned, -⟩ := planned_round plan options (step + before.length) hactive hempty hfree
  rw [← hself] at hplanned
  exact ⟨hdone, congrArg Round.step hself, hstart, hplanned⟩

variable {plan options}

/-- **Up to a round** the orders of the plan are brought step by step. -/
theorem flatMap_opening {limit : Nat} {b : Broker σ α}
    (hempty : b.account.blotter.pending = []) (hfree : b.held = none)
    {before after : List (Round σ α)} (h : b.rounds plan options limit 0 = before ++ after) :
    before.flatMap Round.opening = (List.range before.length).flatMap plan.ordersFor := by
  induction before using List.reverseRecOn generalizing after with
  | nil => rfl
  | append_singleton before round ih =>
    rw [List.append_assoc] at h
    obtain ⟨-, hstep, -, hround⟩ := planned_rounds plan options limit 0 hempty hfree h
    rw [Nat.zero_add] at hstep
    rw [List.flatMap_append, ih h, List.length_append, List.length_singleton, List.range_succ,
      List.flatMap_append, List.flatMap_singleton, List.flatMap_singleton, hround.opening_eq,
      hstep]

/-- A run that is completed counts its rounds. -/
theorem ticks_of_completed {limit : Nat} {b : Broker σ α} {total : RunSummary α}
    (h : (replay plan options limit b).outcome = some (.ok total)) :
    total.ticks = (b.rounds plan options limit 0).length ∧
      ∀ round ∈ b.rounds plan options limit 0, ∃ report, round.outcome = .ok report := by
  have hdone : ∀ round ∈ b.rounds plan options limit 0, ∃ report, round.outcome = .ok report := by
    intro round hmem
    cases ho : round.outcome with
    | ok report => exact ⟨report, rfl⟩
    | error fault =>
      have hfault : (replay plan options limit b).outcome = some (.error fault) :=
        advance_fault ho limit _ _ hmem
      rw [h] at hfault
      cases hfault
  obtain ⟨-, -, htotal⟩ := replay_rounds plan options limit b
  obtain ⟨hticks, -⟩ := htotal total h
  refine ⟨?_, hdone⟩
  rw [hticks, reportsOf, List.filterMap_length_eq_length]
  intro round hmem
  obtain ⟨report, ho⟩ := hdone round hmem
  rw [ho]
  rfl

/-! ### What the service sees of a replay -/

theorem attempts_untaped (limit : Nat) : ∀ (left : Nat) (b : Broker (Taped σ α) α),
    b.untaped.attempts left = b.attempts left ∧
      (tickRetrying limit left b.untaped).1 = (tickRetrying limit left b).1
  | 0, b => by
    rw [tickRetrying_zero, tickRetrying_zero, tick_untaped]
    exact ⟨rfl, rfl⟩
  | left + 1, b => by
    have htick : b.untaped.tick.1 = b.tick.1 := congrArg Prod.fst b.tick_untaped
    have hretried : b.untaped.retried = b.retried.untaped := by
      unfold retried
      rw [tick_untaped]
      exact after_untaped _ _
    obtain ⟨hcalls, houtcome⟩ := attempts_untaped limit left b.retried
    rw [← hretried] at hcalls houtcome
    cases h : unanswered b.tick.1 with
    | false =>
      have hu : unanswered b.untaped.tick.1 = false := by rw [htick, h]
      rw [tickRetrying_answered limit (left + 1) h, tickRetrying_answered limit (left + 1) hu,
        attempts_answered (left + 1) h, attempts_answered (left + 1) hu]
      exact ⟨rfl, htick⟩
    | true =>
      have hu : unanswered b.untaped.tick.1 = true := by rw [htick, h]
      obtain ⟨_, hagain⟩ := tickRetrying_unanswered limit left h
      obtain ⟨_, hagainu⟩ := tickRetrying_unanswered limit left hu
      constructor
      · rw [attempts_unanswered left h, attempts_unanswered left hu, hcalls, htick]
      · rw [hagain, hagainu]
        exact houtcome

theorem round_untaped (plan : Plan α) (options : RunOptions) (step : Nat)
    (b : Broker (Taped σ α) α) :
    let round := b.round plan options step
    let untaped := b.untaped.round plan options step
    untaped.calls = round.calls ∧ untaped.outcome = round.outcome ∧
      untaped.finish = round.finish.untaped := by
  intro round untaped
  obtain ⟨hattempts, houtcome⟩ := attempts_untaped options.maxTickRetries
    options.maxTickRetries (b.after ((plan.ordersFor step).map .insert))
  rw [← after_untaped] at hattempts houtcome
  have hcalls : untaped.calls = round.calls :=
    congrArg (fun ticks => (plan.ordersFor step).map Call.insert ++ ticks) hattempts
  refine ⟨hcalls, houtcome, ?_⟩
  unfold Round.finish
  rw [hcalls]
  exact after_untaped _ b

theorem rounds_untaped (plan : Plan α) (options : RunOptions) :
    ∀ (limit step : Nat) (b : Broker (Taped σ α) α),
      callsOf (b.untaped.rounds plan options limit step) =
        callsOf (b.rounds plan options limit step)
  | 0, _, _ => rfl
  | limit + 1, step, b => by
    obtain ⟨hcalls, houtcome, hfinish⟩ := round_untaped plan options step b
    have hover : (b.untaped.finished || options.maxTicks.any (· ≤ step)) =
        (b.finished || options.maxTicks.any (· ≤ step)) := rfl
    cases hgo : b.finished || options.maxTicks.any (· ≤ step) with
    | true =>
      rw [rounds, hover, hgo, rounds, hgo]
      rfl
    | false =>
      rw [rounds_active limit hgo, rounds_active limit (hover.trans hgo), houtcome, hfinish]
      cases (b.round plan options step).outcome with
      | error fault => exact congrArg (· ++ []) hcalls
      | ok report =>
        have ih := rounds_untaped plan options limit (step + 1) (b.round plan options step).finish
        exact congrArg₂ (· ++ ·) hcalls ih

/-- **A replay on a taped service** makes the same calls, and the tape has the batches of
its rounds. -/
theorem replay_untaped (plan : Plan α) (options : RunOptions) (limit : Nat) (b : Broker σ α) :
    let taped : Broker (Taped σ α) α := b.onto ⟨b.service, []⟩
    let done := replay plan options limit taped
    done.broker.untaped = (replay plan options limit b).broker ∧
      done.broker.service.submissions =
        (b.rounds plan options limit 0).flatMap Round.batches := by
  intro taped done
  have hcalls : callsOf (taped.rounds plan options limit 0) =
      callsOf (b.rounds plan options limit 0) := (rounds_untaped plan options limit 0 taped).symm
  obtain ⟨htaped, -⟩ := replay_rounds plan options limit taped
  obtain ⟨hbroker, -⟩ := replay_rounds plan options limit b
  obtain ⟨huntaped, hsubmissions⟩ :=
    b.submissions_after (callsOf (b.rounds plan options limit 0))
  have hrounds : (b.dispatches (callsOf (b.rounds plan options limit 0))).flatMap (·.batches) =
      (b.rounds plan options limit 0).flatMap Round.batches := by
    unfold dispatches
    rw [gather_rounds, List.flatMap_assoc]
    rfl
  rw [htaped, hcalls, hbroker]
  exact ⟨huntaped, hsubmissions.trans hrounds⟩

end Broker

open Broker in
/-- **Every order of a plan reaches the broker once, on its step and in its place.** The
orders of a plan are the entries of its text, sorted by step with the order of the text kept
within a step, and step by step up to the last they are the whole plan. Whatever the service
answers, a replay that starts with nothing pending or held comes to the steps one after the
other, inserts the orders of each right before the first attempt at its tick, and otherwise
inserts nothing but what an attempt handed back; so up to any step it has brought the
orders of the plan up to this step, in the order of the plan. At every completed step the
service took one batch, of the orders of the step that the ledger of that moment does not
refuse, or none if there are none. A run that is completed after some ticks has inserted no
order of a later step. -/
theorem orders_reach_their_steps {text : String} {plan : Plan Float}
    (hplan : Plan.ofJson text = .ok plan) :
    (∃ entries : List (PlannedOrder Float),
      Wire.parse Wire.readEntries text = .ok (entries.map Plan.entry) ∧
        Plan.Sorting entries plan.orders) ∧
    (plan.lastStep = none → plan.orders = []) ∧
    (∀ last, plan.lastStep = some last →
      (List.range (last + 1)).flatMap plan.ordersFor = plan.orders.map (·.order)) ∧
    ∀ (σ : Type) [Service σ Float] (options : RunOptions) (limit : Nat) (b : Broker σ Float),
      b.account.blotter.pending = [] → b.held = none →
      let rounds := b.rounds plan options limit 0
      let done := replay plan options limit b
      let taped := replay plan options limit (b.onto (⟨b.service, []⟩ : Taped σ Float))
      done.broker = b.after (callsOf rounds) ∧
      (taped.broker.untaped = done.broker ∧
        taped.broker.service.submissions = rounds.flatMap Round.batches) ∧
      (∀ before round after, rounds = before ++ round :: after →
        (∀ earlier ∈ before, ∃ report, earlier.outcome = .ok report) ∧
        round.step = before.length ∧ round.start = b.after (callsOf before) ∧
        round.Planned plan ∧
        (before ++ [round]).flatMap Round.opening =
          (List.range (round.step + 1)).flatMap plan.ordersFor) ∧
      ∀ total, done.outcome = some (.ok total) →
        rounds.length = total.ticks ∧
        (∀ round ∈ rounds, ∃ report, round.outcome = .ok report) ∧
        rounds.flatMap Round.opening =
          (plan.orders.filter (·.step < total.ticks)).map (·.order) ∧
        ∀ order, .insert order ∈ callsOf rounds →
          ∃ p ∈ plan.orders, p.step < total.ticks ∧ p.order = order := by
  obtain ⟨entries, hread, rfl⟩ := Plan.ofJson_eq_ok_iff.mp hplan
  have hsorting := Plan.sorting_sortBySteps entries
  refine ⟨⟨entries, hread, hsorting⟩, Plan.lastStep_eq_none_iff.mp,
    fun last => Plan.flatMap_ordersFor_last hsorting.sorted,
    fun σ _ options limit b hempty hfree => ?_⟩
  intro rounds done taped
  obtain ⟨hbroker, -⟩ := replay_rounds ⟨Plan.sortBySteps entries⟩ options limit b
  refine ⟨hbroker, replay_untaped _ options limit b, fun before round after h => ?_,
    fun total htotal => ?_⟩
  · obtain ⟨hdone, hstep, hstart, hround⟩ := planned_rounds _ options limit 0 hempty hfree h
    rw [Nat.zero_add] at hstep
    have hprefix : rounds = (before ++ [round]) ++ after := by
      rw [List.append_assoc]
      exact h
    have hopening := flatMap_opening hempty hfree hprefix
    rw [List.length_append, List.length_singleton, ← hstep] at hopening
    exact ⟨hdone, hstep, hstart, hround, hopening⟩
  · have ⟨hticks, hdone⟩ : total.ticks = rounds.length ∧ _ := ticks_of_completed htotal
    have hopening := flatMap_opening hempty hfree (List.append_nil rounds).symm
    refine ⟨hticks.symm, hdone, ?_, fun order hmem => ?_⟩
    · rw [hopening, ← hticks]
      exact Plan.flatMap_ordersFor hsorting.sorted total.ticks
    · obtain ⟨round, hround, hcall⟩ := List.mem_flatMap.mp hmem
      obtain ⟨before, after, hsplit⟩ := List.append_of_mem hround
      obtain ⟨-, hstep, -, hplanned⟩ := planned_rounds _ options limit 0 hempty hfree hsplit
      obtain ⟨p, hp, rfl⟩ := List.mem_map.mp (hplanned.inserted order hcall)
      obtain ⟨hp, hat⟩ := List.mem_filter.mp hp
      refine ⟨p, hp, ?_, rfl⟩
      have hticks : total.ticks = before.length + (after.length + 1) :=
        hticks.trans ((congrArg List.length hsplit).trans List.length_append)
      have hat : p.step = round.step := of_decide_eq_true hat
      omega

/-- Two buys, of which the second is planned for the earlier step. -/
def samplePlanText : String :=
  "\x7b\"orders\": [" ++
    "\x7b\"step\": 1, \"order_type\": \"MarketBuy\", \"symbol\": \"ABC\", \"qty\": 5\x7d, " ++
    "\x7b\"step\": 0, \"order_type\": \"MarketBuy\", \"symbol\": \"ABC\", \"qty\": 2.5\x7d]\x7d"

def sampleEarlierBuy : Order Float :=
  ⟨⟨.marketBuy, ⟨"ABC"⟩, 2.5, none, none⟩, rfl⟩

def sampleLaterBuy : Order Float :=
  ⟨⟨.marketBuy, ⟨"ABC"⟩, 5, none, none⟩, rfl⟩

theorem sample_plan : Plan.ofJson samplePlanText =
    .ok ⟨[⟨0, sampleEarlierBuy⟩, ⟨1, sampleLaterBuy⟩]⟩ := by
  let entries : List (PlannedOrder Float) := [⟨1, sampleLaterBuy⟩, ⟨0, sampleEarlierBuy⟩]
  have hread : (Wire.parse Wire.readEntries samplePlanText).toOption =
      some (entries.map Plan.entry) := by decide +kernel
  have hsorted : Plan.sortBySteps entries = [⟨0, sampleEarlierBuy⟩, ⟨1, sampleLaterBuy⟩] := by
    simp [Plan.sortBySteps, entries, List.mergeSort, List.MergeSort.Internal.splitInTwo]
  refine Plan.ofJson_eq_ok_iff.mpr ⟨entries, ?_, congrArg Plan.mk hsorted.symm⟩
  cases hparse : Wire.parse Wire.readEntries samplePlanText with
  | error fault =>
    rw [hparse] at hread
    cases hread
  | ok read =>
    rw [hparse] at hread
    exact congrArg Except.ok (Option.some.inj hread)

/-- A session of one step at a service that does not get the first batch. -/
def sampleUnheard : Broker (ScriptedService Float) Float :=
  let service := { Broker.sampleTrader.service with script := [] }
  Broker.sampleTrader.onto (service.failSubmit (.transport "offline"))

/-- The buy of the first step is inserted, and taken at the second attempt. That of the
second step is never inserted. -/
theorem sample_orders_reach_their_steps : ∃ plan round later total,
    Plan.ofJson samplePlanText = .ok plan ∧
    sampleUnheard.rounds plan Broker.sampleOptions 2 0 = round :: later ∧
    (replay plan Broker.sampleOptions 2 sampleUnheard).outcome = some (.ok total) ∧
    (round :: later).flatMap Round.opening = [sampleEarlierBuy] ∧
    round.batches.filter (·.taken) = [⟨⟨0⟩, [sampleEarlierBuy], .ok ()⟩] := by
  obtain ⟨-, -, -, hreplay⟩ := orders_reach_their_steps sample_plan
  obtain ⟨-, -, hrounds, hcompleted⟩ :=
    hreplay (ScriptedService Float) Broker.sampleOptions 2 sampleUnheard rfl rfl
  have houtcome : (replay ⟨[⟨0, sampleEarlierBuy⟩, ⟨1, sampleLaterBuy⟩]⟩ Broker.sampleOptions 2
      sampleUnheard).outcome = some (.ok ⟨⟨0⟩, 1, 1, 0, 0, 1000, none, true⟩) := rfl
  have hactive : sampleUnheard.rounds ⟨[⟨0, sampleEarlierBuy⟩, ⟨1, sampleLaterBuy⟩]⟩
      Broker.sampleOptions 2 0 = _ :: _ := Broker.rounds_active 1 rfl
  obtain ⟨-, hdone, hopening, -⟩ := hcompleted _ houtcome
  obtain ⟨-, -, -, hplanned, -⟩ := hrounds [] _ _ hactive
  rw [hactive] at hdone hopening
  obtain ⟨report, hreport⟩ := hdone _ List.mem_cons_self
  exact ⟨_, _, _, _, sample_plan, hactive, houtcome, hopening, hplanned.taken report hreport⟩

end Brokerage
