/-
# Durations in seconds

A duration is told in seconds as the sum of two doubles, the whole seconds and a fraction. Both
are rounded, and so is their sum, so the seconds can be more than the duration; but there is no
double in between (`Duration.seconds_le`). While the whole seconds have 53 digits at most they
are exact, and what a double exceeds them by is a double too; if they have more, the fraction is
absorbed by them (`Double.add_fraction_le`).

So seconds below those of a duration are not more than the duration itself, and the duration
that they are converted to, the nearest number of nanoseconds (`Duration.nearest_roundHalfEven`),
is not longer (`Duration.ofSeconds?_le`). Over exact amounts the seconds of a duration are its
nanoseconds divided (`Duration.seconds_rational`).

Key theorems: `Double.rounds_count`, `Double.add_fraction_le`, `Duration.seconds_rational`,
`Duration.isFinite_seconds`, `Duration.seconds_le`, `Duration.nearest_roundHalfEven`,
`Duration.ofSeconds?_le`.
-/
import Brokerage.Duration
import Brokerage.Proofs.Exact
import Brokerage.Proofs.Quotient
import Brokerage.Proofs.Shortest

namespace Brokerage

open Decimal (raised roundHalfEven)

namespace Double

open Float.Model (Format)
open Float.Model.UnpackedFloat

variable {n : ℕ} {x y : Float}

/-! ### Whole numbers -/

/-- **A whole number that fits a word is rounded** to a double. -/
theorem rounds_count (h : n < 2 ^ 64) : (Amount.count n : Float).isFinite = true ∧
    Rounds n (rational (Amount.count n)) := by
  have hfinite : (Amount.count n : Float).isFinite = true := isFinite_ofScientific h
  refine ⟨hfinite, ?_⟩
  rcases Nat.lt_or_ge n (2 ^ 53) with hsmall | hlarge
  · obtain ⟨y, hy, hn⟩ := ofScientific_small hsmall
    have hword := number?_word hsmall
    have hone : number? y.toModel.unpack = some 1 := by
      rw [hy]
      norm_num [unit, number?, Sign.apply]
    have hcount : (Amount.count n : Float) = n.toUInt64.toFloat * y := hn
    rw [hcount] at hfinite ⊢
    have hrounds := rounds_mul ((isFinite_iff _).mpr ⟨_, hword⟩) ((isFinite_iff _).mpr ⟨_, hone⟩)
      hfinite
    rwa [rational_eq hword, rational_eq hone, mul_one] at hrounds
  · obtain ⟨hplace, hlast, hn⟩ := ofScientific_large hlarge h
    have hcount : (Amount.count n : Float) = _ := hn
    have hM : n * 2 ^ 53 ≠ 0 := Nat.mul_ne_zero (by omega) (by norm_num)
    have hrounds := Rounds.scaled .positive hM hplace
    have hvalue : ((Sign.positive.apply (n * 2 ^ 53 : ℕ) : ℤ) : ℚ) * 2 ^ (-53 : ℤ) = n := by
      show (((n * 2 ^ 53 : ℕ) : ℤ) : ℚ) * 2 ^ (-53 : ℤ) = n
      push_cast
      rw [mul_assoc, zpow_neg]
      norm_num
    rw [hvalue] at hrounds
    rw [roundWithAccuracy_eq _ hplace] at hcount
    rw [rational_packed (congrArg Float.toModel hcount) (canonical_carried _ hplace hlast)
      (number?_carried _ _ _)]
    exact hrounds

theorem rational_count (h : n < 2 ^ 53) : rational (Amount.count n) = n :=
  (rounds_count (h.trans (by norm_num))).2.unique (representable_natCast h).rounds

/-- **A large double absorbs a fraction.** -/
theorem add_fraction_le (hx : x.isFinite = true) (hy : y.isFinite = true)
    (hsum : (x + y).isFinite = true) (hlarge : 2 ^ 53 ≤ rational x)
    (hfraction : rational y ≤ 1 - 2 ^ (-53 : ℤ)) : rational (x + y) ≤ rational x := by
  have hpos : 0 < rational x := lt_of_lt_of_le (by norm_num) hlarge
  obtain ⟨m, e, hm, -, hvalue, hlt, -, hmany⟩ := exists_scaled hx hpos
  have hplace : 1 ≤ e := by
    by_contra hsmall
    have hm' : (m : ℚ) < 2 ^ 53 := by exact_mod_cast hlt
    have hfew : (m : ℚ) * 2 ^ e < 2 ^ 53 :=
      calc (m : ℚ) * 2 ^ e ≤ m * 2 ^ (0 : ℤ) := by
            gcongr
            · norm_num
            · omega
        _ = m := by rw [zpow_zero, mul_one]
        _ < 2 ^ 53 := hm'
    rw [hvalue] at hlarge
    exact absurd hlarge (not_le.mpr hfew)
  -- The sum with the largest fraction, told from the place of the fraction on.
  obtain ⟨M, hM⟩ : ∃ M : ℕ, M = m * 2 ^ (e + 53).toNat + (2 ^ 53 - 1) := ⟨_, rfl⟩
  have hlargest : (M : ℚ) * 2 ^ (-53 : ℤ) = m * 2 ^ e + (1 - 2 ^ (-53 : ℤ)) := by
    have hsplit : (2 : ℚ) ^ e = 2 ^ (e + 53).toNat * 2 ^ (-53 : ℤ) :=
      two_zpow_split (f := -53) (by omega)
    rw [hM, hsplit]
    push_cast
    norm_num
    ring
  have hunit : (2 : ℚ) ≤ 2 ^ e := by
    calc (2 : ℚ) = 2 ^ (1 : ℤ) := (zpow_one 2).symm
      _ ≤ 2 ^ e := by
        gcongr
        norm_num
  have hnear : Rounds (M * 2 ^ (-53 : ℤ)) (m * 2 ^ e) := by
    refine Rounds.of_near (hmany (by omega)) hlt (by omega) (by omega) ?_ ?_
    · rw [hlargest]
      norm_num
    · rw [hlargest, add_mul]
      norm_num
      linarith
  rw [← hvalue] at hnear
  refine (rounds_add hx hy hsum).mono hnear ?_
  rw [hlargest, ← hvalue]
  linarith

end Double

open Double

namespace Duration

variable {d : Duration} {x : Float}

/-! ### To seconds -/

/-- Over exact amounts nothing is rounded. -/
theorem seconds_rational (d : Duration) : (d.seconds : ℚ) = d.nanoseconds / 1000000000 := by
  have hsplit : (d.nanoseconds : ℚ) =
      1000000000 * (d.nanoseconds / 1000000000 : ℕ) + (d.nanoseconds % 1000000000 : ℕ) := by
    exact_mod_cast (Nat.div_add_mod d.nanoseconds 1000000000).symm
  show ((d.nanoseconds / 1000000000 : ℕ) : ℚ) +
    (d.nanoseconds % 1000000000 : ℕ) / ((1000000000 : ℕ) : ℚ) = _
  rw [hsplit]
  push_cast
  ring

theorem seconds_nonneg (d : Duration) : (0 : ℚ) ≤ d.seconds := by
  rw [seconds_rational]
  positivity

/-- The nanoseconds short of a second, as a fraction of one. -/
theorem fraction_bounds (d : Duration) :
    (Amount.count (d.nanoseconds % 1000000000) / Amount.count 1000000000 : Float).isFinite = true ∧
    0 ≤ rational (Amount.count (d.nanoseconds % 1000000000) / Amount.count 1000000000) ∧
    rational (Amount.count (d.nanoseconds % 1000000000) / Amount.count 1000000000) ≤
      1 - 2 ^ (-53 : ℤ) ∧
    ∀ b, Representable b → ((d.nanoseconds % 1000000000 : ℕ) : ℚ) / 1000000000 ≤ b →
      rational (Amount.count (d.nanoseconds % 1000000000) / Amount.count 1000000000) ≤ b := by
  have hlt : d.nanoseconds % 1000000000 < 1000000000 := Nat.mod_lt _ (by norm_num)
  generalize d.nanoseconds % 1000000000 = n at hlt ⊢
  have hn := rational_count (hlt.trans (by norm_num))
  have hbillion := rational_count (n := 1000000000) (by norm_num)
  have hless : rational (Amount.count n) < rational (Amount.count 1000000000) := by
    rw [hn, hbillion]
    exact_mod_cast hlt
  obtain ⟨hfinite, hnonneg, hbound⟩ := rounds_div
    (rounds_count (hlt.trans (by norm_num))).1 (rounds_count (by norm_num)).1
    (by rw [hn]; exact Nat.cast_nonneg n) hless
  rw [hn, hbillion, Nat.cast_ofNat] at hbound
  refine ⟨hfinite, hnonneg, hbound _ ⟨2 ^ 53 - 1, -53, by norm_num, by norm_num, ?_⟩ ?_, hbound⟩
  · norm_num
  · have hle : (n : ℚ) ≤ 999999999 := by exact_mod_cast Nat.le_of_lt_succ hlt
    norm_num
    linarith

theorem whole_lt (hfits : d.Fits) : d.nanoseconds / 1000000000 < 2 ^ 64 :=
  Nat.div_lt_of_lt_mul (by rw [mul_comm]; exact hfits)

theorem isFinite_seconds (hfits : d.Fits) : (d.seconds : Float).isFinite = true := by
  obtain ⟨hwhole, hrounds⟩ := rounds_count (whole_lt hfits)
  obtain ⟨hfraction, hnonneg, hless, -⟩ := d.fraction_bounds
  have hmost : Representable (2 ^ 64) := ⟨2 ^ 52, 12, by norm_num, by norm_num, by norm_num⟩
  have hbelow := hrounds.nonneg (Nat.cast_nonneg _)
  have habove := hrounds.mono hmost.rounds (by exact_mod_cast (whole_lt hfits).le)
  have hrange := le_overflow (T := 12) (by norm_num)
  have hbit : (0 : ℚ) ≤ 2 ^ (-53 : ℤ) := by positivity
  show (_ + _ : Float).isFinite = true
  rw [isFinite_add_iff hwhole hfraction, abs_of_nonneg (add_nonneg hbelow hnonneg)]
  refine lt_of_lt_of_le ?_ hrange
  norm_num at habove hless hbit ⊢
  linarith

/-- **No double lies between a duration and its seconds.** -/
theorem seconds_le (hfits : d.Fits) {b : ℚ} (hb : Representable b) (h : (d.seconds : ℚ) < b) :
    rational (d.seconds : Float) ≤ b := by
  obtain ⟨hwhole, hrounds⟩ := rounds_count (whole_lt hfits)
  obtain ⟨hfraction, hnonneg, hless, hbound⟩ := d.fraction_bounds
  have hfinite := isFinite_seconds hfits
  have hexact : (d.seconds : ℚ) = (d.nanoseconds / 1000000000 : ℕ) +
      ((d.nanoseconds % 1000000000 : ℕ) : ℚ) / 1000000000 := rfl
  have hrest : (0 : ℚ) ≤ ((d.nanoseconds % 1000000000 : ℕ) : ℚ) / 1000000000 := by positivity
  rw [hexact] at h
  unfold seconds at hfinite ⊢
  generalize (Amount.count (d.nanoseconds % 1000000000) / Amount.count 1000000000 : Float) = y at *
  generalize d.nanoseconds / 1000000000 = S at *
  have hreached : (S : ℚ) ≤ b := by linarith
  rcases Nat.lt_or_ge S (2 ^ 53) with hsmall | hlarge
  · -- The whole seconds are exact, and the rest of `b` beside them is a double or a second.
    have hsame := rational_count hsmall
    suffices hpart : rational y ≤ b - S by
      refine (rounds_add hwhole hfraction hfinite).mono hb.rounds ?_
      rw [hsame]
      linarith
    rcases le_or_gt ((S : ℚ) + 1) b with hnext | hbetween
    · have hbit : (0 : ℚ) ≤ 2 ^ (-53 : ℤ) := by positivity
      linarith
    · refine hbound _ ?_ (by linarith)
      obtain ⟨k, g, hk, hg, rfl⟩ := hb
      have hplace : g < 0 := by
        by_contra hwhole'
        obtain ⟨j, rfl⟩ : ∃ j : ℕ, g = j := ⟨g.toNat, by omega⟩
        rw [zpow_natCast] at h hreached hbetween
        have hlow : S ≤ k * 2 ^ j := by exact_mod_cast hreached
        have hhigh : k * 2 ^ j < S + 1 := by exact_mod_cast hbetween
        have hequal : k * 2 ^ j = S := by omega
        have hequal' : (k : ℚ) * 2 ^ j = S := by exact_mod_cast hequal
        linarith
      obtain ⟨j, rfl⟩ : ∃ j : ℕ, g = -j := ⟨(-g).toNat, by omega⟩
      have hpow : (0 : ℚ) < 2 ^ j := by positivity
      have hfewer : S * 2 ^ j ≤ k := by
        rw [zpow_neg, zpow_natCast, ← div_eq_mul_inv, le_div_iff₀ hpow] at hreached
        exact_mod_cast hreached
      refine ⟨k - S * 2 ^ j, -j, by omega, hg, ?_⟩
      rw [Nat.cast_sub hfewer, zpow_neg, zpow_natCast]
      push_cast
      field_simp
  · have hrounded := hrounds.mono hb.rounds hreached
    have hlarge' : (2 : ℚ) ^ 53 ≤ rational (Amount.count S) :=
      (Representable.rounds ⟨2 ^ 52, 1, by norm_num, by norm_num, by norm_num⟩).mono hrounds
        (by exact_mod_cast hlarge)
    exact (add_fraction_le hwhole hfraction hfinite hlarge' hless).trans hrounded

/-! ### From seconds -/

/-- **A quotient is rounded to the nearest whole number,** from the middle to the even one. -/
theorem nearest_roundHalfEven {num den : ℕ} (hden : 0 < den) :
    Nearest (roundHalfEven num den) (num / den) := by
  have hpos : (0 : ℚ) < den := by exact_mod_cast hden
  have hsplit : (num : ℚ) / den = (num / den : ℕ) + ((num % den : ℕ) : ℚ) / den := by
    have hwhole : (num : ℚ) = den * (num / den : ℕ) + (num % den : ℕ) := by
      exact_mod_cast (Nat.div_add_mod num den).symm
    rw [div_eq_iff hpos.ne', add_mul, div_mul_cancel₀ _ hpos.ne', mul_comm]
    exact hwhole
  have hnonneg : (0 : ℚ) ≤ ((num % den : ℕ) : ℚ) / den := by positivity
  have hless : ((num % den : ℕ) : ℚ) / den < 1 := by
    rw [div_lt_one hpos]
    exact_mod_cast Nat.mod_lt num hden
  rw [hsplit]
  unfold roundHalfEven
  rcases lt_trichotomy (2 * (num % den)) den with hdown | hmiddle | hup
  · have hhalf : ((num % den : ℕ) : ℚ) / den < 1 / 2 := by
      rw [div_lt_div_iff₀ hpos two_pos, mul_comm, one_mul]
      exact_mod_cast hdown
    simp only [hdown, if_true]
    refine .of_lt (abs_lt.mpr ⟨?_, ?_⟩) <;> linarith
  · have hhalf : ((num % den : ℕ) : ℚ) / den = 1 / 2 := by
      rw [div_eq_div_iff hpos.ne' two_ne_zero, mul_comm, one_mul]
      exact_mod_cast hmiddle
    have heven : (if num / den % 2 == 0 then num / den else num / den + 1) =
        num / den + num / den % 2 := by
      rcases Nat.mod_two_eq_zero_or_one (num / den) with h | h <;> simp [h]
    simp only [hmiddle, lt_irrefl, if_false, heven, hhalf]
    exact .middle (num / den)
  · have hhalf : 1 / 2 < ((num % den : ℕ) : ℚ) / den := by
      rw [div_lt_div_iff₀ two_pos hpos, one_mul, mul_comm]
      exact_mod_cast hup
    simp only [hup.not_gt, hup, if_false, if_true]
    refine .of_lt (abs_lt.mpr ⟨?_, ?_⟩) <;> push_cast <;> linarith

/-- **Seconds that are not more than a duration make one that is not longer,** and it is the
nearest whole number of nanoseconds. -/
theorem ofSeconds?_le (hfits : d.Fits) (hx : x.isFinite = true) (hx0 : 0 ≤ rational x)
    (h : rational x ≤ d.seconds) : ∃ e, ofSeconds? x = some e ∧
      e.nanoseconds ≤ d.nanoseconds ∧ Nearest e.nanoseconds (rational x * 1000000000) := by
  obtain ⟨negative, b, a, hclass, hnumber, hvalue⟩ := classify_number hx
  rw [← rational_eq hnumber, abs_of_nonneg hx0] at hvalue
  have hnotBelow : ¬ x < 0 := by
    rw [lt_iff_rational hx rfl, rational_zero]
    exact not_lt.mpr hx0
  have hnearest : Nearest (b.roundTimes 1000000000) (rational x * 1000000000) := by
    have hscale := Decimal.raised_div (show 0 < 2 by norm_num) b.exponent
    rw [Nat.cast_ofNat] at hscale
    have hunits : rational x * 1000000000 =
        (b.mantissa * raised 2 b.exponent * 1000000000 : ℕ) / (raised 2 (-b.exponent) : ℕ) := by
      rw [hvalue, hscale]
      push_cast
      ring
    rw [hunits]
    exact nearest_roundHalfEven (Decimal.raised_pos (by norm_num) _)
  have hlimit : Nearest d.nanoseconds d.nanoseconds := .of_lt (by simp)
  have hrounded : b.roundTimes 1000000000 ≤ d.nanoseconds := by
    refine hnearest.mono hlimit ?_
    rw [seconds_rational, le_div_iff₀ (by norm_num)] at h
    exact h
  refine ⟨⟨b.roundTimes 1000000000⟩, ?_, hrounded, hnearest⟩
  unfold ofSeconds?
  rw [if_neg hnotBelow, hclass]
  exact if_pos (hrounded.trans_lt hfits)

end Duration

end Brokerage
