/-
# Written amounts read back

Whether a decimal reads back to a double depends on its value alone: the value has to lie
between the halfway points to the neighbours of the double (`Binary.readsBack_iff`). The
search gives nothing that does not read back, the exact value reads back, and dropping
zeros leaves the value as it is. So what is written of a finite double reads back to it
(`Binary.readsBack_written`).

Key definitions: `Binary.lower`, `Binary.upper`, `Binary.written`.
Key theorems: `against_le`, `Binary.readsBack_iff`, `Binary.readsBack_shortest`,
`Binary.readsBack_written`.
-/
import Brokerage.Proofs.NumeralText

namespace Brokerage
namespace Decimal

/-! ### Comparing over one denominator -/

theorem raised_pos {base : ℕ} (h : 0 < base) (e : ℤ) : 0 < raised base e :=
  Nat.pow_pos h

/-- A power is the quotient of its two parts, of which one is one. -/
theorem raised_div {base : ℕ} (h : 0 < base) (e : ℤ) :
    (base : ℚ) ^ e = raised base e / raised base (-e) := by
  have hbase : (base : ℚ) ≠ 0 := by exact_mod_cast h.ne'
  have hcast : ∀ k : ℤ, ((raised base k : ℕ) : ℚ) = (base : ℚ) ^ (k.toNat : ℤ) := fun k => by
    rw [zpow_natCast]
    exact Nat.cast_pow _ _
  rw [hcast, hcast, ← zpow_sub₀ hbase]
  congr 1
  omega

/-- Two numbers over one denominator are in the order of the numbers. -/
theorem against_eq (d : Scaled) (n : ℕ) (e : ℤ) : ∃ scale : ℚ, 0 < scale ∧
    ((d.against n e).1 : ℚ) = d.value * scale ∧
    ((d.against n e).2 : ℚ) = n * 2 ^ e * scale := by
  have hten : ((raised 10 (-d.power) : ℕ) : ℚ) ≠ 0 := by
    exact_mod_cast (raised_pos (by decide) _).ne'
  have htwo : ((raised 2 (-e) : ℕ) : ℚ) ≠ 0 := by exact_mod_cast (raised_pos (by decide) _).ne'
  have hpower := raised_div (show 0 < 10 by decide) d.power
  have hexponent := raised_div (show 0 < 2 by decide) e
  push_cast at hpower hexponent
  refine ⟨raised 10 (-d.power) * raised 2 (-e), ?_, ?_, ?_⟩
  · have h10 := raised_pos (show 0 < 10 by decide) (-d.power)
    have h2 := raised_pos (show 0 < 2 by decide) (-e)
    positivity
  · unfold Scaled.against Scaled.value
    rw [hpower]
    push_cast
    field_simp
  · unfold Scaled.against
    rw [hexponent]
    push_cast
    field_simp

theorem against_le (d : Scaled) (n : ℕ) (e : ℤ) :
    (d.against n e).1 ≤ (d.against n e).2 ↔ d.value ≤ n * 2 ^ e := by
  obtain ⟨scale, hscale, hfirst, hsecond⟩ := against_eq d n e
  rw [← Nat.cast_le (α := ℚ), hfirst, hsecond, mul_le_mul_iff_left₀ hscale]

theorem le_against (d : Scaled) (n : ℕ) (e : ℤ) :
    (d.against n e).2 ≤ (d.against n e).1 ↔ n * 2 ^ e ≤ d.value := by
  obtain ⟨scale, hscale, hfirst, hsecond⟩ := against_eq d n e
  rw [← Nat.cast_le (α := ℚ), hfirst, hsecond, mul_le_mul_iff_left₀ hscale]

namespace Binary

/-- Halfway to the double below. -/
def lower (b : Binary) : ℚ :=
  ((4 * b.mantissa - if b.narrowBelow then 1 else 2 : ℕ) : ℚ) * 2 ^ (b.exponent - 2)

/-- Halfway to the double above. -/
def upper (b : Binary) : ℚ :=
  ((4 * b.mantissa + 2 : ℕ) : ℚ) * 2 ^ (b.exponent - 2)

/-- **A decimal reads back if its value lies between the halfway points,** which count if
the mantissa is even. -/
theorem readsBack_iff (b : Binary) (d : Scaled) : b.readsBack d = true ↔
    if b.mantissa % 2 = 0 then b.lower ≤ d.value ∧ d.value ≤ b.upper
    else b.lower < d.value ∧ d.value < b.upper := by
  unfold readsBack
  simp only
  by_cases heven : b.mantissa % 2 = 0
  · rw [if_pos heven, if_pos (by simpa using heven), Bool.and_eq_true, decide_eq_true_iff,
      decide_eq_true_iff, le_against, against_le]
    rfl
  · rw [if_neg heven, if_neg (by simpa using heven), Bool.and_eq_true, decide_eq_true_iff,
      decide_eq_true_iff, ← not_le, ← not_le, against_le, le_against, not_le, not_le]
    rfl

/-- Decimals of one value read back alike. -/
theorem readsBack_of_value {b : Binary} {d c : Scaled} (h : d.value = c.value)
    (hd : b.readsBack d = true) : b.readsBack c = true := by
  rw [readsBack_iff] at hd ⊢
  rwa [← h]

theorem exact_value (b : Binary) : b.exact.value = b.mantissa * 2 ^ b.exponent := by
  unfold exact Scaled.value
  split
  · rename_i hpos
    have hnone : raised 2 (-b.exponent) = 1 := by
      unfold raised
      rw [show (-b.exponent).toNat = 0 by omega, Nat.pow_eq, pow_zero]
    have htwo := raised_div (show 0 < 2 by decide) b.exponent
    rw [hnone] at htwo
    push_cast at htwo ⊢
    rw [htwo, mul_one, div_one]
  · rename_i hneg
    have hfive := raised_div (show 0 < 5 by decide) (-b.exponent)
    have hnone : raised 5 (- -b.exponent) = 1 := by
      unfold raised
      rw [show (- -b.exponent).toNat = 0 by omega, Nat.pow_eq, pow_zero]
    rw [hnone] at hfive
    push_cast at hfive ⊢
    rw [div_one] at hfive
    rw [← hfive, mul_assoc, show (10 : ℚ) = 5 * 2 by norm_num, mul_zpow, ← mul_assoc (5 ^ _),
      ← zpow_add₀ (by norm_num), neg_add_cancel, zpow_zero, one_mul]

/-- The exact value is between the halfway points. -/
theorem readsBack_exact {b : Binary} (hb : 0 < b.mantissa) : b.readsBack b.exact = true := by
  have hunit : (0 : ℚ) < 2 ^ (b.exponent - 2) := by positivity
  have hquarters : (b.mantissa : ℚ) * 2 ^ b.exponent =
      (4 * b.mantissa : ℕ) * 2 ^ (b.exponent - 2) := by
    rw [zpow_sub₀ two_ne_zero]
    push_cast
    ring
  have hbelow : b.lower < b.exact.value := by
    rw [exact_value, hquarters]
    unfold lower
    refine mul_lt_mul_of_pos_right ?_ hunit
    exact_mod_cast (by split <;> omega)
  have habove : b.exact.value < b.upper := by
    rw [exact_value, hquarters]
    unfold upper
    refine mul_lt_mul_of_pos_right ?_ hunit
    exact_mod_cast Nat.lt_add_of_pos_right (by decide)
  rw [readsBack_iff]
  split
  · exact ⟨hbelow.le, habove.le⟩
  · exact ⟨hbelow, habove⟩

theorem lower_pos {b : Binary} (hb : 0 < b.mantissa) : 0 < b.lower := by
  unfold lower
  have hdigits : 0 < 4 * b.mantissa - if b.narrowBelow then 1 else 2 := by
    split <;> omega
  have hdigits' : (0 : ℚ) < ((4 * b.mantissa - if b.narrowBelow then 1 else 2 : ℕ) : ℚ) := by
    exact_mod_cast hdigits
  positivity

/-- What reads back to a double that is not zero is not zero. -/
theorem digits_ne_zero {b : Binary} (hb : 0 < b.mantissa) {d : Scaled}
    (hd : b.readsBack d = true) : d.digits ≠ 0 := by
  intro hzero
  have hvalue : d.value = 0 := by
    unfold Scaled.value
    rw [hzero, Nat.cast_zero, zero_mul]
  have hpos := lower_pos hb
  rw [readsBack_iff, hvalue] at hd
  split at hd
  · exact absurd hd.1 (not_le.mpr hpos)
  · exact absurd hd.1 (not_lt.mpr hpos.le)

/-! ### The search -/

theorem readsBack_pick {b : Binary} {tie : Tie} {candidate d : Scaled}
    (h : b.pick tie candidate = some d) : b.readsBack d = true := by
  unfold pick at h
  simp only at h
  split at h
  · cases h
  · rename_i hlow _
    cases h
    exact hlow
  · rename_i _ hhigh
    cases h
    exact hhigh
  · rename_i hlow hhigh
    split at h
    · cases h
      exact hlow
    · split at h
      · cases h
        exact hhigh
      · cases tie with
        | up =>
          cases h
          exact hhigh
        | toEven =>
          simp only at h
          split at h
          · cases h
            exact hlow
          · cases h
            exact hhigh

/-- Nothing is found that does not read back. -/
theorem readsBack_search {b : Binary} {tie : Tie} {top : ℤ} : ∀ {fuel n : ℕ} {d : Scaled},
    b.search tie top fuel n = some d → b.readsBack d = true
  | 0, _, _, h => by cases h
  | fuel + 1, n, d, h => by
    unfold search at h
    split at h
    · rename_i found hpick
      cases h
      exact readsBack_pick hpick
    · exact readsBack_search h

end Binary

theorem strip_value : ∀ (fuel : ℕ) (d : Scaled), (Scaled.strip fuel d).value = d.value
  | 0, _ => rfl
  | fuel + 1, d => by
    unfold Scaled.strip
    split
    · rename_i hzero
      rw [strip_value fuel]
      rw [Bool.and_eq_true] at hzero
      have hten : d.digits % 10 = 0 := by simpa using hzero.2
      have hdigits : (d.digits : ℚ) = (d.digits / 10 : ℕ) * 10 := by
        exact_mod_cast (by omega : d.digits = d.digits / 10 * 10)
      unfold Scaled.value
      rw [zpow_add_one₀ (by norm_num), hdigits]
      simp only
      ring
    · rfl

namespace Binary

/-- **The shortest decimal reads back.** -/
theorem readsBack_shortest (tie : Tie) {b : Binary} (hb : 0 < b.mantissa) :
    b.readsBack (shortest tie b) = true := by
  refine readsBack_of_value (strip_value 20 _).symm ?_
  cases hsearch : b.search tie b.magnitude 17 1 with
  | none => exact readsBack_exact hb
  | some d => exact readsBack_search hsearch

/-- The decimal that is written of a double. -/
def written (tie : Tie) (b : Binary) : Scaled :=
  if b.mantissa == 0 then ⟨0, 0⟩ else shortest tie b

/-- **What is written of a double reads back to it,** and zero is written as zero. -/
theorem readsBack_written (tie : Tie) (b : Binary) : b.readsBack (b.written tie) = true ∧
    ((b.written tie).digits = 0 → (b.written tie).power = 0) := by
  unfold written
  by_cases hb : b.mantissa = 0
  · rw [if_pos (by simpa using hb)]
    refine ⟨?_, fun _ => rfl⟩
    have hvalue : Scaled.value ⟨0, 0⟩ = 0 := by
      unfold Scaled.value
      rw [Nat.cast_zero, zero_mul]
    have hlower : b.lower = 0 := by
      unfold lower
      rw [hb, Nat.mul_zero, Nat.zero_sub, Nat.cast_zero, zero_mul]
    have hupper : 0 ≤ b.upper := by
      unfold upper
      positivity
    rw [readsBack_iff, if_pos (by rw [hb]), hvalue, hlower]
    exact ⟨le_refl 0, hupper⟩
  · rw [if_neg (by simpa using hb)]
    have hback := readsBack_shortest tie (Nat.pos_of_ne_zero hb)
    exact ⟨hback, fun hzero => absurd hzero (digits_ne_zero (Nat.pos_of_ne_zero hb) hback)⟩

end Binary
end Decimal
end Brokerage
