/-
# What becomes of an order

No order is lost and none is doubled: over a run, the orders that come in are those
that its dispatches drained and those still pending (`Broker.orders_accounted_for`),
and what was drained has come to one of four ends (`drained_ends`). Every call
balances; the balance of a run is the sum.

Key definitions: `Broker.intakes`, `Broker.dispatches`.
Key theorems: `drained_ends`, `Broker.outcomes_handedBack`,
`Broker.dispatches_handedBack`, `Broker.orders_accounted_for`.
-/
import Mathlib.Data.List.Perm.Basic
import Brokerage.Proofs.Dispatch
import Brokerage.Proofs.Exact

namespace Brokerage

variable {σ α : Type} [Amount α]

open scoped List in
/-- What the dispatches of a run drained has come to one of four ends. -/
theorem drained_ends (dispatches : List (Dispatch α)) :
    (dispatches.flatMap (·.drained)).Perm
      (dispatches.flatMap (fun d => d.rejected.map (·.order)) ++
        ((dispatches.flatMap (·.batches)).flatMap (·.acknowledged) ++
          (dispatches.flatMap (·.batches)).flatMap (·.unreached) ++
          (dispatches.flatMap (·.batches)).flatMap (·.refused))) := by
  have haccepted : dispatches.flatMap (·.accepted) =
      (dispatches.flatMap (·.batches)).flatMap (·.orders) := by
    rw [List.flatMap_assoc]
    exact congrArg (dispatches.flatMap ·) (funext fun d => d.batches_orders.symm)
  have hbatches : ∀ batches : List (Submission α), (batches.flatMap (·.orders)).Perm
      (batches.flatMap (·.acknowledged) ++ batches.flatMap (·.unreached) ++
        batches.flatMap (·.refused)) := by
    intro batches
    have horders : batches.flatMap (·.orders) =
        batches.flatMap fun s => s.acknowledged ++ s.unreached ++ s.refused :=
      congrArg (batches.flatMap ·) (funext fun s => s.orders_eq)
    rw [horders]
    refine (List.flatMap_append_perm _ _ _).symm.trans ?_
    exact (List.flatMap_append_perm _ _ _).symm.append_right _
  calc dispatches.flatMap (·.drained)
      _ ~ dispatches.flatMap fun d => d.accepted ++ d.rejected.map (·.order) :=
        .flatMap_left _ fun d _ => d.drained_perm
      _ ~ dispatches.flatMap (·.accepted) ++
            dispatches.flatMap (fun d => d.rejected.map (·.order)) :=
        (List.flatMap_append_perm _ _ _).symm
      _ ~ dispatches.flatMap (fun d => d.rejected.map (·.order)) ++
            (dispatches.flatMap (·.batches)).flatMap (·.orders) := by
        rw [haccepted]
        exact List.perm_append_comm
      _ ~ _ := (hbatches _).append_left _

namespace Broker

section

variable [Service σ α]

/-- The orders accepted in a run. -/
def intakes (b : Broker σ α) (calls : List (Call α)) : List (Order α) :=
  gather intake b calls

/-- The dispatches of a run. -/
def dispatches (b : Broker σ α) (calls : List (Call α)) : List (Dispatch α) :=
  gather dispatch b calls

theorem dispatch_untaped (b : Broker (Taped σ α) α) : ∀ call : Call α,
    b.untaped.dispatch call = b.dispatch call
  | .insert _ => rfl
  | .tick => by
    have hsame : b.untaped.dispatched = b.dispatched := by
      unfold dispatched
      rw [submission_untaped, tick_untaped]
      rfl
    unfold dispatch
    rw [hsame]
    rfl

theorem outcomes_handedBack : ∀ (calls : List (Call α)) (b : Broker σ α),
    (b.outcomes calls).flatMap handedBack =
      (b.dispatches calls).flatMap fun d => handedBack d.outcome
  | [], _ => rfl
  | call :: calls, b => by
    have hcall := b.perform_handedBack call
    have ih := outcomes_handedBack calls (b.perform call).2
    rw [outcomes_cons, List.flatMap_append, hcall, ih]
    exact List.flatMap_append.symm

theorem dispatches_handedBack {b : Broker σ α} {calls : List (Call α)} {d : Dispatch α}
    (h : d ∈ b.dispatches calls) : handedBack d.outcome = d.batches.flatMap (·.unreached) := by
  obtain ⟨c, call, hd⟩ := mem_gather h
  cases call with
  | insert order => cases hd
  | tick =>
    rcases c.fresh_or_stale with ⟨hactive, hfree, hdispatch⟩ | ⟨hdispatch, -⟩
    · rw [hdispatch] at hd
      obtain rfl := List.mem_singleton.mp hd
      exact handedBack_tick hactive hfree
    · rw [hdispatch] at hd
      cases hd

/-- **Every order is accounted for.** The orders accepted in a run are those that
its dispatches drained, one dispatch after the other, and those still pending. Each
dispatch splits what it drained by the ledger of that moment: the observer is shown
the rejected orders, and the service, whatever it is, is sent the accepted ones, in
one batch if there are any, and nothing else. A tick hands its batch back if the
batch did not reach the service, and in no other case. So every accepted order is
pending, rejected, acknowledged, handed back or refused, and no two of these. -/
theorem orders_accounted_for {setup : Setup α} {service : σ} {b : Broker σ α}
    (h : connect setup service = .ok b) (calls : List (Call α)) :
    let dispatches := b.dispatches calls
    let batches := dispatches.flatMap (·.batches)
    let c := b.after calls
    b.intakes calls = dispatches.flatMap (·.drained) ++ c.account.blotter.pending ∧
    c.rejections = dispatches.flatMap (·.rejected) ∧
    (∃ b' : Broker (Taped σ α) α, connect setup (⟨service, []⟩ : Taped σ α) = .ok b' ∧
      b'.untaped = b ∧ (b'.after calls).untaped = c ∧ b'.answers calls = b.answers calls ∧
      (b'.after calls).service.submissions = batches) ∧
    (∀ d ∈ dispatches, handedBack d.outcome = d.batches.flatMap (·.unreached)) ∧
    (b.outcomes calls).flatMap handedBack = dispatches.flatMap (fun d => handedBack d.outcome) ∧
    (b.intakes calls).Perm (c.account.blotter.pending ++ c.rejections.map (·.order) ++
      batches.flatMap (·.acknowledged) ++ (b.outcomes calls).flatMap handedBack ++
      batches.flatMap (·.refused)) := by
  obtain ⟨cash, -, -, haccount, -, -, -, -, -, now, hjournal⟩ := connect_ok h
  have hbalance : b.intakes calls = (b.dispatches calls).flatMap (·.drained) ++
      (b.after calls).account.blotter.pending := by
    have hrun := gather_balance perform_pending calls b
    rw [gather_flatMap, haccount] at hrun
    exact hrun
  have hrejections : (b.after calls).rejections = (b.dispatches calls).flatMap (·.rejected) := by
    have hrun := gather_record perform_rejections calls b
    have hnone : b.rejections = [] := by
      unfold rejections
      rw [hjournal]
      rfl
    rw [gather_flatMap, hnone] at hrun
    exact hrun
  have hback : (b.outcomes calls).flatMap handedBack =
      ((b.dispatches calls).flatMap (·.batches)).flatMap (·.unreached) := by
    rw [outcomes_handedBack, List.flatMap_assoc]
    exact List.flatMap_congr fun d hd => dispatches_handedBack hd
  refine ⟨hbalance, hrejections, ?_, fun d hd => dispatches_handedBack hd,
    outcomes_handedBack calls b, ?_⟩
  · obtain ⟨b', request, opening, hconnect, rfl, htape⟩ := connect_untaped h
    refine ⟨b', hconnect, rfl, (after_untaped calls b').symm, ?_, ?_⟩
    · refine (gather_untaped (fun b call => ?_) calls b').symm
      rw [perform_untaped]
    · have hrun := gather_record (f := fun b => b.service.submissions) perform_submissions calls b'
      have hnone : b'.service.submissions = [] := by
        unfold Taped.submissions
        rw [htape]
        rfl
      rw [gather_flatMap, hnone, ← gather_untaped dispatch_untaped] at hrun
      exact hrun
  · rw [hbalance, hrejections, hback, List.map_flatMap]
    refine List.perm_append_comm.trans ?_
    simp only [List.append_assoc]
    have hends := drained_ends (b.dispatches calls)
    rw [List.append_assoc] at hends
    exact hends.append_left _

end

/-- In the sample session a sell is rejected, a buy is acknowledged, and one that
comes later is still pending. -/
theorem sample_orders_accounted_for :
    sampleBroker.intakes [.insert sampleSell, .insert sampleOrder, .tick, .insert sampleOrder] =
      [sampleSell, sampleOrder] ++ [sampleOrder] ∧
    (sampleBroker.after [.insert sampleSell, .insert sampleOrder, .tick,
      .insert sampleOrder]).rejections.map (·.order) = [sampleSell] := by
  obtain ⟨hbalance, hrejections, -⟩ := orders_accounted_for connect_sample
    [.insert sampleSell, .insert sampleOrder, .tick, .insert sampleOrder]
  have hdrained : (sampleBroker.dispatches [.insert sampleSell, .insert sampleOrder, .tick,
      .insert sampleOrder]).flatMap (·.drained) = [sampleSell, sampleOrder] := rfl
  have hrejected : ((sampleBroker.dispatches [.insert sampleSell, .insert sampleOrder, .tick,
      .insert sampleOrder]).flatMap (·.rejected)).map (·.order) = [sampleSell] := by
    decide +kernel
  have hpending : (sampleBroker.after [.insert sampleSell, .insert sampleOrder, .tick,
      .insert sampleOrder]).account.blotter.pending = [sampleOrder] := by
    decide +kernel
  rw [hdrained, hpending] at hbalance
  exact ⟨hbalance, by rw [hrejections, hrejected]⟩

end Broker
end Brokerage
