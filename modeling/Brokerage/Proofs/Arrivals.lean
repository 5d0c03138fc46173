/-
# What has just come to rest

The broker lists the orders that came to rest in the latest step. Nothing has changed any of
them since: they rest, each under a number of its own, with their whole quantity open
(`Broker.arrivals_intact`). The list is cleared when a step begins, and a step has its executions
before its placements. So as long as an execution can still come the list is empty, and that
holds of a step that is held as well (`Broker.Intact`): what a placement has entered, no
execution of its step comes after.

Key definitions: `Account.Whole`, `Broker.Fresh`, `Broker.Intact`.
Key theorems: `Broker.Fresh.takePlacement`, `Broker.Fresh.executions`, `Broker.Intact.applyStep`,
`Broker.Intact.tick`, `Broker.arrivals_intact`.
-/
import Brokerage.Proofs.Discipline
import Brokerage.Proofs.Resting

namespace Brokerage

variable {σ α : Type} [Amount α]

/-- The number rests, with the whole quantity of its order open. -/
def Account.Whole (a : Account α) (id : OrderId) : Prop :=
  ∃ entry, a.blotter.resting.get? id = some entry ∧ entry.remaining = entry.order.quantity

/-- An order that comes to rest is open as a whole, and the others are as they were. -/
theorem Account.Whole.place {a a' : Account α} {id other : OrderId} {order : Order α}
    (h : a.place id order = .ok a') (hwhole : id = other ∨ a.Whole other) : a'.Whole other := by
  unfold Account.Whole
  rw [Account.get?_place h other]
  by_cases hid : id = other
  · rw [if_pos hid]
    exact ⟨_, rfl, rfl⟩
  · rw [if_neg hid]
    exact hwhole.resolve_left hid

/-- A number that has just been placed was not resting before. -/
theorem Account.not_whole_of_place {a a' : Account α} {id : OrderId} {order : Order α}
    (h : a.place id order = .ok a') : ¬ a.Whole id := by
  rintro ⟨entry, hentry, -⟩
  have hresting : a.blotter.isResting id = true := Blotter.isResting_iff.mpr ⟨entry, hentry⟩
  unfold Account.place Blotter.place at h
  rw [hresting] at h
  cases h

namespace Broker

/-- What is listed as having come to rest is listed once and open as a whole. -/
structure Fresh (b : Broker σ α) : Prop where
  nodup : b.insertedLastTick.Nodup
  whole : ∀ id ∈ b.insertedLastTick, b.account.Whole id

/-- A step that is held has executions left only while nothing of it has come to rest. -/
structure Intact (b : Broker σ α) : Prop extends Fresh b where
  held : ∀ step, b.held = some step → b.insertedLastTick = [] ∨ step.executed = []

variable {b c : Broker σ α}

/-! ### The two loops of a step -/

theorem Fresh.of_nil (h : b.insertedLastTick = []) : b.Fresh where
  nodup := by rw [h]; exact List.nodup_nil
  whole := fun id hid => by rw [h] at hid; cases hid

theorem Fresh.of_same (hb : b.Fresh) (hlist : c.insertedLastTick = b.insertedLastTick)
    (hresting : c.account.blotter.resting = b.account.blotter.resting) : c.Fresh where
  nodup := by rw [hlist]; exact hb.nodup
  whole := fun id hid => by
    rw [hlist] at hid
    unfold Account.Whole
    rw [hresting]
    exact hb.whole id hid

/-- A placement lists a number that was not resting, and so not listed. -/
theorem Fresh.takePlacement (hb : b.Fresh) {p : OrderId × Order α}
    (h : b.takePlacement p = .ok c) : c.Fresh := by
  unfold Broker.takePlacement at h
  cases hp : b.account.place p.1 p.2 with
  | error cause => rw [hp] at h; cases h
  | ok a =>
    rw [hp] at h
    cases h
    have hnew : p.1 ∉ b.insertedLastTick := fun hid =>
      Account.not_whole_of_place hp (hb.whole p.1 hid)
    refine ⟨?_, fun id hid => ?_⟩
    · refine List.nodup_append.mpr ⟨hb.nodup, by simp, fun id hid other hother heq => ?_⟩
      rw [heq, List.mem_singleton.mp hother] at hid
      exact hnew hid
    · refine Account.Whole.place hp ?_
      rcases List.mem_append.mp hid with hold | hlast
      · exact .inr (hb.whole id hold)
      · exact .inl (List.mem_singleton.mp hlast).symm

theorem Fresh.placements (hb : b.Fresh) (ps : List (OrderId × Order α)) :
    (feed Broker.takePlacement b ps).1.Fresh :=
  feed_invariant (fun _ _ _ hb h => hb.takePlacement h) ps b hb

/-- Executions list nothing. -/
theorem executions_insertedLastTick (es : List (Execution α)) (b : Broker σ α) :
    (feed takeExecution b es).1.insertedLastTick = b.insertedLastTick := by
  refine feed_invariant (P := fun c => c.insertedLastTick = b.insertedLastTick)
    (fun c e d hc h => ?_) es b rfl
  unfold takeExecution at h
  cases hr : c.account.reconcile e with
  | error cause => rw [hr] at h; cases h
  | ok a =>
    rw [hr] at h
    cases h
    exact hc

/-- Executions come while nothing is listed, or there are none. -/
theorem Fresh.executions (hb : b.Fresh) {es : List (Execution α)}
    (h : b.insertedLastTick = [] ∨ es = []) : (feed takeExecution b es).1.Fresh := by
  rcases h with hnone | rfl
  · exact .of_nil ((executions_insertedLastTick es b).trans hnone)
  · exact hb

/-! ### Every tick -/

theorem Intact.of_free (hb : b.Fresh) (h : b.held = none) : b.Intact where
  toFresh := hb
  held := fun step hheld => by rw [h] at hheld; cases hheld

theorem conclude_free (hfree : b.held = none) (hb : b.Fresh) (step : Step α)
    (report : TickReport α) : (b.conclude step report).2.Intact := by
  have hkept := b.conclude_keeps (fun b => (b.insertedLastTick, b.account, b.held))
    (fun _ _ _ _ _ _ _ => rfl) step report
  obtain ⟨hlist, hrest⟩ := Prod.mk.inj hkept
  obtain ⟨haccount, hheld⟩ := Prod.mk.inj hrest
  exact .of_free (hb.of_same hlist (by rw [haccount])) (hheld.trans hfree)

/-- **Applying a step** that has executions left only if nothing is listed: if it stops at an
execution nothing is listed yet, and if it stops at a placement no execution is left. -/
theorem Intact.applyStep (hb : b.Fresh) (hfree : b.held = none) {step : Step α}
    (h : b.insertedLastTick = [] ∨ step.executed = []) (report : TickReport α) :
    (b.applyStep step report).2.Intact := by
  have hexecuted := hb.executions h
  have hlist := executions_insertedLastTick step.executed b
  have hheld : (feed takeExecution b step.executed).1.held = none := by
    rw [← hfree]
    have hkept := feed_keeps (fun b => b.held) (fun _ _ i => by cases i <;> rfl)
      (step.executed.map .execution) b
    rwa [feed_executions] at hkept
  unfold Broker.applyStep
  rcases hfe : feed takeExecution b step.executed with ⟨c, _ | ⟨cause, rest⟩⟩ <;>
    rw [hfe] at hexecuted hlist hheld
  · have hplaced := hexecuted.placements step.inserted
    have hfree' : (feed Broker.takePlacement c step.inserted).1.held = none := by
      rw [← hheld]
      have hkept := feed_keeps (fun b => b.held) (fun _ _ i => by cases i <;> rfl)
        (step.inserted.map fun p => .placement p.1 p.2) c
      rwa [feed_placements] at hkept
    rcases hfp : feed Broker.takePlacement c step.inserted with ⟨d, _ | ⟨cause, rest⟩⟩ <;>
      rw [hfp] at hplaced hfree'
    · simp only [hfp]
      exact conclude_free hfree' hplaced step _
    · simp only [hfp]
      exact ⟨hplaced.of_same rfl rfl, fun s hs => .inr (by cases hs; rfl)⟩
  · have hnone : c.insertedLastTick = [] := by
      rcases h with h | h
      · exact hlist.trans h
      · rw [h] at hfe
        cases hfe
    exact ⟨hexecuted.of_same rfl rfl, fun _ _ => .inl hnone⟩

section

variable [Service σ α]

/-- A fresh step begins with nothing listed, and a step that is taken up again with what it
has listed before. -/
theorem Intact.tick (hb : b.Intact) : b.tick.2.Intact := by
  rw [tick_eq]
  rcases hd : b.due with ⟨fault | ⟨step, report⟩, c⟩
  · rcases due_error hd with ⟨-, -, rfl⟩ | ⟨-, hfree, s, rfl, -⟩
    · exact hb
    · exact .of_free (hb.toFresh.of_same rfl rfl) hfree
  · have hfree := due_held hd
    rcases due_ok hd with ⟨-, ⟨hheld, -, rfl⟩ | ⟨-, -, reply, s, -, -, rfl⟩⟩
    · exact .applyStep (b := { b with held := none }) (hb.toFresh.of_same rfl rfl) hfree
        (hb.held step hheld) report
    · exact .applyStep (.of_nil rfl) hfree (.inl rfl) report

theorem Intact.perform (hb : b.Intact) : ∀ made : Call α, (b.perform made).2.Intact
  | .insert order => by
    rcases b.insert_eq order with h | h <;> unfold Broker.perform <;> rw [h]
    · exact hb
    · exact ⟨hb.toFresh.of_same rfl rfl, hb.held⟩
  | .tick => hb.tick

/-- **What has just come to rest is intact,** in every state that operations lead to: with a step
held, after a tick that failed and at the end of the session. No number is listed twice, and under
each an order rests of which nothing has been filled, withdrawn or changed. -/
theorem arrivals_intact {setup : Setup α} {service : σ} {b : Broker σ α}
    (h : connect setup service = .ok b) (ops : List (Operation σ α)) :
    (b.operated ops).insertedLastTick.Nodup ∧
    ∀ id ∈ (b.operated ops).insertedLastTick, ∃ entry,
      (b.operated ops).account.blotter.resting.get? id = some entry ∧
        entry.remaining = entry.order.quantity := by
  obtain ⟨cash, -, -, -, -, hfree, -, -, hnone, -⟩ := connect_ok h
  have hstart : b.Intact := .of_free (.of_nil hnone) hfree
  have hreached : (b.operated ops).Intact :=
    operated_invariant (fun _ made hb => hb.perform made)
      (fun _ _ hb => ⟨hb.toFresh.of_same rfl rfl, hb.held⟩) ops hstart
  exact ⟨hreached.nodup, hreached.whole⟩

end

/-- The second tick of the sample session brings an order to rest and stops at a placement
under the same number. The step is held, and the order is listed and intact. -/
theorem sample_arrivals_intact :
    (sampleBroker.operated [.call .tick, .call .tick]).insertedLastTick = [⟨7⟩] ∧
    (sampleBroker.operated [.call .tick, .call .tick]).held.isSome = true ∧
    ∃ entry, (sampleBroker.operated [.call .tick, .call .tick]).account.blotter.resting.get? ⟨7⟩ =
      some entry ∧ entry.remaining = entry.order.quantity := by
  obtain ⟨-, hwhole⟩ := arrivals_intact connect_sample [.call .tick, .call .tick]
  have hlisted : (sampleBroker.operated [.call .tick, .call .tick]).insertedLastTick = [⟨7⟩] := by
    decide +kernel
  refine ⟨hlisted, by decide +kernel, hwhole ⟨7⟩ ?_⟩
  rw [hlisted]
  exact List.mem_singleton.mpr rfl

end Broker
end Brokerage
