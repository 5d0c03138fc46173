/-
# How long is waited

Before an attempt is repeated, the first wait is taken times the factor for every attempt before
the last one, 32 times at most. The limit stands in for what reaches it and for what is no number
at all, be the factor below zero, infinite or undefined. What is below the limit is compared as
seconds, which are rounded; but no double lies between the limit and its seconds
(`Duration.seconds_le`), so the seconds that are left always make a duration, and it is not longer
than the limit (`RetryPolicy.backoff?_le`).

Over exact amounts, repeated squaring is the power (`squarings_eq`), and a factor of one or more
never makes a later wait shorter (`RetryPolicy.wait_eq`).

Key definitions: `RetryPolicy.wait`.
Key theorems: `squarings_eq`, `RetryPolicy.delay_bounds`, `RetryPolicy.backoff?_le`,
`RetryPolicy.wait_eq`, `RetryPolicy.wait_mono`, `RetryPolicy.backoff_bounded`.
-/
import Brokerage.RetryPolicy
import Brokerage.Proofs.Seconds

namespace Brokerage

open Double

/-- **Repeated squaring is the power.** -/
theorem squarings_eq (r a : ℚ) (n : ℕ) : squarings r a n = r * a ^ n := by
  have hodd : (if n % 2 = 1 then r * a else r) = r * a ^ (n % 2) := by
    rcases Nat.mod_two_eq_zero_or_one n with h | h <;> rw [h] <;> simp
  have hsplit : a ^ n = a ^ (n % 2) * (a * a) ^ (n / 2) := by
    rw [← pow_two, ← pow_mul, ← pow_add, Nat.mod_add_div]
  rw [squarings, hodd, hsplit]
  split
  · rename_i hlast
    rw [hlast, pow_zero, mul_one]
  · rw [squarings_eq (r * a ^ (n % 2)) (a * a) (n / 2), mul_assoc]
termination_by n
decreasing_by omega

namespace RetryPolicy

/-- There is a delay if the product is finite and does not reach the limit. -/
theorem delay_eq_some {α : Type} [Amount α] {p : RetryPolicy α} {attempt : ℕ} {s : α}
    (h : p.delay attempt = some s) :
    ∃ t, t = p.initialBackoff.seconds * squarings 1 p.multiplier (min (attempt - 1) 32) ∧
      Amount.isFinite t = true ∧ ¬ p.maxBackoff.seconds ≤ t ∧ s = larger t 0 := by
  simp only [delay, Option.ite_none_left_eq_some, Bool.or_eq_true, Bool.not_eq_true',
    decide_eq_true_eq, not_or, Bool.not_eq_false, Option.some.injEq] at h
  obtain ⟨⟨hfinite, hbelow⟩, hs⟩ := h
  exact ⟨_, rfl, hfinite, hbelow, hs.symm⟩

/-! ### Doubles -/

section

variable {p : RetryPolicy Float} {attempt : ℕ} {s : Float}

/-- A delay is finite and not below zero, and it does not exceed the limit. -/
theorem delay_bounds (hfits : p.maxBackoff.Fits) (h : p.delay attempt = some s) :
    s.isFinite = true ∧ 0 ≤ rational s ∧ rational s ≤ p.maxBackoff.seconds := by
  obtain ⟨t, -, ht, hbelow, hs⟩ := delay_eq_some h
  have hzero : (0 : Float).isFinite = true := rfl
  have hfinite : s.isFinite = true := by
    rw [hs]
    exact isFinite_larger ht hzero
  have hlarger : rational s = max (rational t) 0 := by
    rw [← rational_zero, ← rational_larger ht hzero]
    exact congrArg rational hs
  have hnonneg : 0 ≤ rational s := hlarger ▸ le_max_right _ _
  refine ⟨hfinite, hnonneg, ?_⟩
  rcases le_total (rational t) 0 with hnone | hsome
  · rw [hlarger, max_eq_right hnone]
    exact p.maxBackoff.seconds_nonneg
  · rw [max_eq_left hsome] at hlarger
    by_contra hover
    have hreached := Duration.seconds_le hfits (representable_rational hfinite hnonneg)
      (not_le.mp hover)
    rw [hlarger, ← le_iff_rational (Duration.isFinite_seconds hfits) ht] at hreached
    exact hbelow hreached

/-- **There is a wait, and it is not longer than the limit.** Without a delay it is the limit,
and else the delay, in the nearest number of nanoseconds. -/
theorem backoff?_le (hfits : p.maxBackoff.Fits) (attempt : ℕ) : ∃ d,
    p.backoff? attempt = some d ∧ d.nanoseconds ≤ p.maxBackoff.nanoseconds ∧
      (p.delay attempt = none → d = p.maxBackoff) ∧
      ∀ s, p.delay attempt = some s → Duration.ofSeconds? s = some d ∧
        Nearest d.nanoseconds (rational s * 1000000000) := by
  unfold backoff?
  cases hdelay : p.delay attempt with
  | none => exact ⟨p.maxBackoff, rfl, le_rfl, fun _ => rfl, fun s hs => by cases hs⟩
  | some s =>
    obtain ⟨hfinite, hnonneg, hbelow⟩ := delay_bounds hfits hdelay
    obtain ⟨d, hd, hle, hnearest⟩ := Duration.ofSeconds?_le hfits hfinite hnonneg hbelow
    refine ⟨d, hd, hle, fun hnone => (by cases hnone), fun t ht => ?_⟩
    cases ht
    exact ⟨hd, hnearest⟩

end

/-! ### Exact amounts -/

/-- The seconds that are waited, before they are rounded to nanoseconds. -/
def wait {α : Type} [Amount α] (p : RetryPolicy α) (attempt : ℕ) : α :=
  (p.delay attempt).getD p.maxBackoff.seconds

variable {p : RetryPolicy ℚ}

/-- **The first wait grows by the factor, up to the limit.** -/
theorem wait_eq (h : 1 ≤ p.multiplier) (attempt : ℕ) : p.wait attempt =
    min p.maxBackoff.seconds
      (p.initialBackoff.seconds * p.multiplier ^ min (attempt - 1) 32) := by
  have hinitial := p.initialBackoff.seconds_nonneg
  have hnonneg : 0 ≤ p.initialBackoff.seconds * p.multiplier ^ min (attempt - 1) 32 :=
    mul_nonneg hinitial (pow_nonneg (zero_le_one.trans h) _)
  have hdelay : p.delay attempt =
      if p.maxBackoff.seconds ≤ p.initialBackoff.seconds * p.multiplier ^ min (attempt - 1) 32
      then none
      else some (larger (p.initialBackoff.seconds * p.multiplier ^ min (attempt - 1) 32) 0) := by
    have hfinite : ∀ t : ℚ, Amount.isFinite t = true := fun _ => rfl
    simp only [delay, squarings_eq, one_mul, hfinite, Bool.not_true, Bool.false_or,
      decide_eq_true_eq]
  unfold wait
  rw [hdelay]
  generalize p.initialBackoff.seconds * p.multiplier ^ min (attempt - 1) 32 = t at *
  have hlarger : larger t 0 = t := by
    unfold larger
    by_cases hle : t ≤ 0
    · rw [if_pos hle]
      exact le_antisymm hnonneg hle
    · rw [if_neg hle, if_pos hnonneg]
  by_cases hreached : p.maxBackoff.seconds ≤ t
  · rw [if_pos hreached, min_eq_left hreached]
    rfl
  · rw [if_neg hreached, min_eq_right (not_le.mp hreached).le, hlarger]
    rfl

/-- **A later wait is not shorter.** -/
theorem wait_mono (h : 1 ≤ p.multiplier) : Monotone p.wait := by
  intro i j hij
  have hinitial := p.initialBackoff.seconds_nonneg
  rw [wait_eq h, wait_eq h]
  refine min_le_min_left _ (mul_le_mul_of_nonneg_left ?_ hinitial)
  exact pow_le_pow_right₀ h (min_le_min_right _ (Nat.sub_le_sub_right hij 1))

/-- **The wait is bounded, and there always is one.** Whatever the first wait and the factor are,
the delay after any attempt makes a duration that is not longer than the limit, if the limit
itself is a duration: the limit if there is no delay, and else the seconds of the delay, which
are waited to the nearest nanosecond. Over exact amounts and with a factor of one or more, the
same delay is the smaller of the limit and the first wait times the factor for each attempt after
the first, 32 at most; number zero waits like number one, and no later attempt waits less. -/
theorem backoff_bounded :
    (∀ p : RetryPolicy Float, p.maxBackoff.Fits → ∀ attempt, ∃ d,
      p.backoff? attempt = some d ∧ p.backoff attempt = d ∧
        d.nanoseconds ≤ p.maxBackoff.nanoseconds ∧
        (p.delay attempt = none → d = p.maxBackoff) ∧
        ∀ s, p.delay attempt = some s → p.wait attempt = s ∧ Duration.ofSeconds? s = some d ∧
          Nearest d.nanoseconds (rational s * 1000000000)) ∧
    (∀ p : RetryPolicy ℚ, 1 ≤ p.multiplier →
      (∀ attempt, p.wait attempt = min p.maxBackoff.seconds
        (p.initialBackoff.seconds * p.multiplier ^ min (attempt - 1) 32)) ∧
      p.wait 0 = p.wait 1 ∧ Monotone p.wait) := by
  constructor
  · intro p hfits attempt
    obtain ⟨d, hd, hle, hnone, hsome⟩ := backoff?_le hfits attempt
    refine ⟨d, hd, ?_, hle, hnone, fun s hs => ⟨?_, hsome s hs⟩⟩
    · unfold backoff
      rw [hd]
      rfl
    · unfold wait
      rw [hs]
      rfl
  · intro p h
    exact ⟨wait_eq h, rfl, wait_mono h⟩

/-- A limit that its seconds exceed, and a wait that is the next double below these. -/
def sampleSteep : RetryPolicy Float where
  maxAttempts := 3
  initialBackoff := ⟨1073741824000000000⟩
  multiplier := 1
  maxBackoff := ⟨1073741824000000200⟩
  retrySubmissions := true

/-- A policy that waits a tenth of a second first, then twice as long, for five at most. -/
def sampleDoubling : RetryPolicy ℚ :=
  standard

/-- The wait is the delay to the nearest nanosecond, and within the limit itself; doubled, a tenth
of a second is two fifths after three attempts, and five seconds in the end. -/
theorem sample_backoff_bounded :
    (∃ d s, sampleSteep.backoff? 40 = some d ∧ d.nanoseconds ≤ 1073741824000000200 ∧
      sampleSteep.delay 40 = some s ∧ Nearest d.nanoseconds (rational s * 1000000000)) ∧
    sampleDoubling.wait 3 = 2 / 5 ∧ sampleDoubling.wait 40 = 5 ∧
    sampleDoubling.wait 3 ≤ sampleDoubling.wait 40 := by
  obtain ⟨hdoubles, hexact⟩ := backoff_bounded
  obtain ⟨heq, -, hmono⟩ := hexact sampleDoubling (by decide +kernel)
  obtain ⟨d, hd, -, hle, -, hsome⟩ := hdoubles sampleSteep (by decide +kernel) 40
  obtain ⟨s, hs⟩ : ∃ s, sampleSteep.delay 40 = some s :=
    Option.isSome_iff_exists.mp (by decide +kernel)
  obtain ⟨-, -, hnearest⟩ := hsome s hs
  refine ⟨⟨d, s, hd, hle, hs, hnearest⟩, ?_, ?_, hmono (by norm_num)⟩
  · rw [heq]
    decide +kernel
  · rw [heq]
    decide +kernel

end RetryPolicy

end Brokerage
