/-
# The orders of a plan step by step

The orders of a plan are the entries of its text, sorted by step; those of one step stay in
the order in which they were written (`Plan.sorting_sortBySteps`). In a list sorted by step
the orders of steps 0, 1, 2, ... stand one after the other, so that taken step by step they
are the plan up to the step reached (`Plan.flatMap_ordersFor`), and up to its last step the
whole plan (`Plan.flatMap_ordersFor_last`).

Key definitions: `Plan.Sorted`, `Plan.Sorting`.
Key theorems: `Plan.filter_sortBySteps`, `Plan.sorting_sortBySteps`,
`Plan.flatMap_ordersFor`, `Plan.flatMap_ordersFor_last`.
-/
import Brokerage.Plan

namespace Brokerage
namespace Plan

variable {α : Type} [Amount α]

/-- No order comes after one of a later step. -/
def Sorted (orders : List (PlannedOrder α)) : Prop :=
  orders.Pairwise fun p q => p.step ≤ q.step

/-- `orders` are the `entries` sorted by step, and nothing else: each of them is there as
often as it is listed, and those of one step come in the order in which they are listed. -/
structure Sorting (entries orders : List (PlannedOrder α)) : Prop where
  perm : orders.Perm entries
  sorted : Sorted orders
  stable : ∀ step, orders.filter (·.step == step) = entries.filter (·.step == step)

/-! ### Sorting -/

/-- The comparison that plans are sorted by. -/
def byStep (p q : PlannedOrder α) : Bool :=
  p.step ≤ q.step

theorem byStep_trans (p q r : PlannedOrder α) (hpq : byStep p q = true) (hqr : byStep q r = true) :
    byStep p r = true := by
  simp only [byStep, decide_eq_true_eq] at *
  omega

theorem byStep_total (p q : PlannedOrder α) : (byStep p q || byStep q p) = true := by
  simp only [byStep, Bool.or_eq_true, decide_eq_true_eq]
  omega

theorem sortBySteps_perm (orders : List (PlannedOrder α)) : (sortBySteps orders).Perm orders :=
  List.mergeSort_perm orders byStep

theorem sorted_sortBySteps (orders : List (PlannedOrder α)) : Sorted (sortBySteps orders) :=
  (List.pairwise_mergeSort byStep_trans byStep_total orders).imp of_decide_eq_true

/-- **Orders of one step keep their order.** -/
theorem filter_sortBySteps (orders : List (PlannedOrder α)) (step : Nat) :
    (sortBySteps orders).filter (·.step == step) = orders.filter (·.step == step) := by
  have hsame : (orders.filter (·.step == step)).Pairwise fun p q => byStep p q = true := by
    refine List.pairwise_iff_forall_sublist.mpr fun {p q} h => ?_
    have hp := (List.mem_filter.mp (h.subset List.mem_cons_self)).2
    have hq := (List.mem_filter.mp (h.subset (List.mem_cons_of_mem p List.mem_cons_self))).2
    simp only [beq_iff_eq] at hp hq
    simp only [byStep, hp, hq, Nat.le_refl, decide_true]
  -- The orders of the step come in the same order after sorting, and no others do.
  have hsub : (orders.filter (·.step == step)).Sublist (sortBySteps orders) :=
    List.sublist_mergeSort byStep_trans byStep_total hsame List.filter_sublist
  have hfilter := hsub.filter (·.step == step)
  rw [List.filter_filter] at hfilter
  simp only [Bool.and_self] at hfilter
  have hlength := ((sortBySteps_perm orders).filter (·.step == step)).length_eq
  exact (hfilter.eq_of_length hlength.symm).symm

theorem sorting_sortBySteps (entries : List (PlannedOrder α)) :
    Sorting entries (sortBySteps entries) :=
  ⟨sortBySteps_perm entries, sorted_sortBySteps entries, filter_sortBySteps entries⟩

/-! ### Taking the plan step by step -/

/-- In a sorted list the orders of a step come right after those of the steps before it. -/
theorem filter_lt_succ (step : Nat) : ∀ {orders : List (PlannedOrder α)}, Sorted orders →
    orders.filter (·.step < step + 1) =
      orders.filter (·.step < step) ++ orders.filter (·.step == step)
  | [], _ => rfl
  | p :: orders, h => by
    obtain ⟨hfirst, hrest⟩ := List.pairwise_cons.mp h
    have ih := filter_lt_succ step hrest
    rcases Nat.lt_trichotomy p.step step with hlt | rfl | hgt
    · have hle : p.step < step + 1 := by omega
      have hne : ¬ p.step = step := by omega
      simp only [List.filter_cons, decide_eq_true_eq, beq_iff_eq, hle, hlt, hne, if_true,
        if_false, ih, List.cons_append]
    · -- Nothing of an earlier step is left.
      have hnone : orders.filter (·.step < p.step) = [] :=
        List.filter_eq_nil_iff.mpr fun q hq => by
          have hle := hfirst q hq
          simp only [decide_eq_true_eq]
          omega
      simp only [List.filter_cons, decide_eq_true_eq, beq_iff_eq, Nat.lt_succ_self, Nat.lt_irrefl,
        if_true, if_false, ih, hnone, List.nil_append]
    · have hle : ¬ p.step < step + 1 := by omega
      have hlt : ¬ p.step < step := by omega
      have hne : ¬ p.step = step := by omega
      simp only [List.filter_cons, decide_eq_true_eq, beq_iff_eq, hle, hlt, hne, if_false, ih]

/-- **Taken step by step,** the orders before a step are those of the plan with an earlier
step, in the order of the plan. -/
theorem flatMap_ordersFor {plan : Plan α} (hsorted : Sorted plan.orders) : ∀ n : Nat,
    (List.range n).flatMap plan.ordersFor = (plan.orders.filter (·.step < n)).map (·.order)
  | 0 => by simp
  | n + 1 => by
    rw [List.range_succ, List.flatMap_append, flatMap_ordersFor hsorted n,
      filter_lt_succ n hsorted, List.map_append, List.flatMap_singleton]
    rfl

theorem step_le_last {plan : Plan α} (hsorted : Sorted plan.orders) {last : Nat}
    (hlast : plan.lastStep = some last) {p : PlannedOrder α} (hp : p ∈ plan.orders) :
    p.step ≤ last := by
  obtain ⟨q, hq, rfl⟩ := Option.map_eq_some_iff.mp hlast
  obtain ⟨before, horders⟩ := List.getLast?_eq_some_iff.mp hq
  unfold Sorted at hsorted
  rw [horders] at hp hsorted
  obtain ⟨-, -, hle⟩ := List.pairwise_append.mp hsorted
  rcases List.mem_append.mp hp with hbefore | hend
  · exact hle p hbefore q List.mem_cons_self
  · exact Nat.le_of_eq (congrArg _ (List.mem_singleton.mp hend))

/-- **Up to its last step** that is the whole plan. -/
theorem flatMap_ordersFor_last {plan : Plan α} (hsorted : Sorted plan.orders) {last : Nat}
    (hlast : plan.lastStep = some last) :
    (List.range (last + 1)).flatMap plan.ordersFor = plan.orders.map (·.order) := by
  have hall : plan.orders.filter (·.step < last + 1) = plan.orders :=
    List.filter_eq_self.mpr fun p hp =>
      decide_eq_true (Nat.lt_succ_of_le (step_le_last hsorted hlast hp))
  rw [flatMap_ordersFor hsorted, hall]

/-- Only an empty plan has no last step. -/
theorem lastStep_eq_none_iff {plan : Plan α} : plan.lastStep = none ↔ plan.orders = [] := by
  unfold lastStep
  rw [Option.map_eq_none_iff, List.getLast?_eq_none_iff]

end Plan
end Brokerage
