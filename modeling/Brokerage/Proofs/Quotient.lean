/-
# Rounded quotients

Two doubles are divided up to a place that is sure to be behind the last one of the quotient, or
the least place there is (`quotient_digits`). What the division leaves is told by the accuracy,
in place of which two more binary digits can be written (`roundWithAccuracy_residue`). A double
that is not below the quotient is not below the number with these digits either
(`quotient_le_of_le`), so it is not below the quotient as it is rounded (`rounds_div`). This is
all of rounding that an upper bound needs.

The other fact about sums and quotients that is needed for bounds is that a large double absorbs
what is less than half of its last place (`Rounds.of_near`).

Key definitions: `residue`, `quotientPlace`, `extendedQuotient`.
Key theorems: `Rounds.of_near`, `roundWithAccuracy_residue`, `quotient_digits`,
`quotient_le_of_le`, `rounds_div`.
-/
import Brokerage.Proofs.Rounding

namespace Brokerage
namespace Double

open Float.Model (Format totalExponent UnpackedFloat)
open Float.Model.UnpackedFloat

variable {x y : Float}

/-! ### What is absorbed -/

/-- **What is less than half of the last place is dropped.** -/
theorem Rounds.of_near {k M : ℕ} {g E : ℤ} (hle : 2 ^ 52 ≤ k) (hlt : k < 2 ^ 53)
    (hg : -1074 ≤ g) (hE : E ≤ g) (hlow : (k : ℚ) * 2 ^ g ≤ M * 2 ^ E)
    (hhigh : (M : ℚ) * 2 ^ E < (k + 1 / 2) * 2 ^ g) : Rounds (M * 2 ^ E) (k * 2 ^ g) := by
  have hpos : (0 : ℚ) < 2 ^ g := by positivity
  have hk : (0 : ℚ) < k := by exact_mod_cast (show 0 < k by omega)
  have hM : M ≠ 0 := by
    rintro rfl
    have hzero : (k : ℚ) * 2 ^ g ≤ 0 := by simpa using hlow
    exact absurd (mul_pos hk hpos) (not_lt.mpr hzero)
  -- The number does not reach the next power of two, so its last place is that of the double.
  have hplace : lastPlace M E = g := by
    refine le_antisymm ?_ ((lastPlace_normal hle hlt hg).ge.trans (lastPlace_mono (by omega) hlow))
    have hdigits : (M : ℚ) < 2 ^ (53 + (g - E).toNat) := by
      have hnext : (k : ℚ) + 1 / 2 ≤ 2 ^ 53 := by
        have hk' : (k : ℚ) + 1 ≤ 2 ^ 53 := by exact_mod_cast hlt
        linarith
      have hbound : (M : ℚ) * 2 ^ E < 2 ^ 53 * (2 ^ (g - E).toNat * 2 ^ E) := by
        rw [← two_zpow_split hE]
        exact hhigh.trans_le (mul_le_mul_of_nonneg_right hnext hpos.le)
      rw [← mul_assoc, ← pow_add] at hbound
      exact lt_of_mul_lt_mul_right hbound (by positivity)
    have hlog : M.log2 < 53 + (g - E).toNat := (Nat.log2_lt hM).mpr (by exact_mod_cast hdigits)
    rw [lastPlace_eq]
    omega
  have hnear : Nearest k ((M : ℚ) * 2 ^ E / 2 ^ g) := by
    refine .of_lt ?_
    have hbelow : (k : ℚ) ≤ M * 2 ^ E / 2 ^ g := (le_div_iff₀ hpos).mpr hlow
    have habove : (M : ℚ) * 2 ^ E / 2 ^ g < k + 1 / 2 := (div_lt_iff₀ hpos).mpr hhigh
    rw [abs_lt]
    constructor <;> linarith
  have hrounded := nearest_roundedAt (hE.trans hplace.ge)
  rw [hplace] at hrounded
  have hkept : roundedAt M E = k :=
    le_antisymm (hrounded.mono hnear le_rfl) (hnear.mono hrounded le_rfl)
  exact .above ⟨M, E, hM, hE.trans hplace.ge, rfl, by rw [hkept, hplace]⟩

/-! ### What a division leaves -/

/-- The two binary digits that stand for what is left behind a mantissa. -/
def residue : Accuracy → ℕ
  | .exact => 0
  | .inexact .lt => 1
  | .inexact .eq => 2
  | .inexact .gt => 3

theorem residue_le (accuracy : Accuracy) : residue accuracy ≤ 3 := by
  rcases accuracy with _ | o
  · decide
  · cases o <;> decide

/-- Two digits that are dropped again leave the accuracy that they stand for. -/
theorem ofMantissaAndAccuracy_eq (M : ℕ) (accuracy : Accuracy) :
    ExtendedMantissa.ofMantissaAndAccuracy M accuracy =
      ExtendedMantissa.ofMantissaAndAccuracy (4 * M + residue accuracy) .exact >>> 2 := by
  have hshift : ∀ N : ℕ, ExtendedMantissa.ofMantissaAndAccuracy N .exact >>> 2 =
      ⟨N / 2 / 2, N / 2 % 2 != 0, N % 2 != 0 || (false || false)⟩ := fun _ => rfl
  have hdigits : ∀ c ≤ 3, (4 * M + c) / 2 / 2 = M ∧ (4 * M + c) / 2 % 2 = c / 2 ∧
      (4 * M + c) % 2 = c % 2 := by omega
  obtain ⟨hmantissa, hround, hsticky⟩ := hdigits _ (residue_le accuracy)
  rw [hshift, hmantissa, hround, hsticky]
  rcases accuracy with _ | o
  · rfl
  · cases o <;> rfl

theorem shiftRight_add (x : ExtendedMantissa) (j : ℕ) : ∀ k : ℕ, x >>> (j + k) = (x >>> j) >>> k
  | 0 => rfl
  | k + 1 => congrArg ExtendedMantissa.shiftRightOne (shiftRight_add x j k)

/-- The digits stand behind the last place. -/
theorem lastPlace_residue {M c : ℕ} {E : ℤ} (hc : c ≤ 3) (h : E ≤ -1074 ∨ M ≠ 0) :
    lastPlace (4 * M + c) (E - 2) = lastPlace M E := by
  rw [lastPlace_eq, lastPlace_eq]
  rcases Nat.eq_zero_or_pos M with rfl | hM
  · have hlog : (4 * 0 + c).log2 ≤ 1 := by
      rcases Nat.eq_zero_or_pos (4 * 0 + c) with hzero | hpos
      · rw [hzero]
        decide
      · have hlt : (4 * 0 + c).log2 < 2 := (Nat.log2_lt hpos.ne').mpr (by omega)
        omega
    rw [Nat.log2_zero]
    omega
  · have hlog : (4 * M + c).log2 = M.log2 + 2 := by
      refine (Nat.log2_eq_iff (by omega)).mpr ⟨?_, ?_⟩
      · have hlow := Nat.log2_self_le hM.ne'
        rw [pow_add]
        omega
      · have hhigh : M < 2 ^ (M.log2 + 1) := Nat.lt_log2_self
        rw [add_right_comm, pow_add]
        omega
    rw [hlog]
    push_cast
    congr 1
    ring

/-- **An accuracy is rounded like two digits more.** -/
theorem roundWithAccuracy_residue (s : Sign) {M : ℕ} {E : ℤ} (hE : E ≤ lastPlace M E)
    (h : E ≤ -1074 ∨ M ≠ 0) (accuracy : Accuracy) :
    roundWithAccuracy Format.binary64 s M E accuracy =
      roundWithAccuracy Format.binary64 s (4 * M + residue accuracy) (E - 2) .exact := by
  have hplace := lastPlace_residue (residue_le accuracy) h
  have hfirst : shiftToTargetExponent Format.binary64 M E accuracy =
      shiftToTargetExponent Format.binary64 (4 * M + residue accuracy) (E - 2) .exact := by
    show (ExtendedMantissa.ofMantissaAndAccuracy M accuracy >>> (lastPlace M E - E).toNat,
        E + ((lastPlace M E - E).toNat : ℤ)) =
      (ExtendedMantissa.ofMantissaAndAccuracy (4 * M + residue accuracy) .exact >>>
          (lastPlace (4 * M + residue accuracy) (E - 2) - (E - 2)).toNat,
        E - 2 + ((lastPlace (4 * M + residue accuracy) (E - 2) - (E - 2)).toNat : ℤ))
    have hshift : (lastPlace M E - (E - 2)).toNat = 2 + (lastPlace M E - E).toNat := by omega
    rw [hplace, hshift, shiftRight_add, ← ofMantissaAndAccuracy_eq]
    refine Prod.ext rfl ?_
    push_cast
    ring
  unfold roundWithAccuracy
  rw [hfirst]

/-! ### The quotient -/

/-- The place up to which two doubles are divided. -/
def quotientPlace (m : ℕ) (e : ℤ) (n : ℕ) (f : ℤ) : ℤ :=
  min (e - f) (Format.binary64.targetExponent (totalExponent m e - totalExponent n f))

theorem quotientPlace_eq (m : ℕ) (e : ℤ) (n : ℕ) (f : ℤ) : quotientPlace m e n f =
    min (e - f) (max (m.log2 + 1 + e - (n.log2 + 1 + f) - 53) (-1074)) := rfl

/-- The dividend with the zeros that are put behind it. -/
def dividend (m : ℕ) (e : ℤ) (n : ℕ) (f : ℤ) : ℕ :=
  m * 2 ^ (e - f - quotientPlace m e n f).toNat

theorem divCore_eq (m : ℕ) (e : ℤ) (n : ℕ) (f : ℤ) : divCore Format.binary64 m e n f =
    (dividend m e n f / n, quotientPlace m e n f,
      accuracyOfFraction (dividend m e n f % n) n) := by
  unfold divCore dividend
  rw [← Nat.shiftLeft_eq]
  rfl

theorem quotient_eq (m : ℕ) (e : ℤ) {n : ℕ} (hn : 0 < n) (f : ℤ) :
    (m : ℚ) * 2 ^ e / (n * 2 ^ f) = dividend m e n f / n * 2 ^ quotientPlace m e n f := by
  have hle : quotientPlace m e n f ≤ e - f := min_le_left _ _
  have hn' : (n : ℚ) ≠ 0 := by exact_mod_cast hn.ne'
  have hscale : (2 : ℚ) ^ e =
      2 ^ (e - f - quotientPlace m e n f).toNat * 2 ^ quotientPlace m e n f * 2 ^ f := by
    rw [← two_zpow_split hle, ← zpow_add₀ two_ne_zero, sub_add_cancel]
  unfold dividend
  rw [hscale]
  push_cast
  field_simp

/-- **The quotient has a digit more than is kept,** short of the least place. -/
theorem quotient_digits {m n : ℕ} (e f : ℤ) (hm : 0 < m) (hn : 0 < n) :
    quotientPlace m e n f ≤ -1074 ∨ 2 ^ 52 ≤ dividend m e n f / n := by
  rcases le_or_gt (quotientPlace m e n f) (-1074) with h | h
  · exact .inl h
  · refine .inr ((Nat.le_div_iff_mul_le hn).mpr ?_)
    have hplace := quotientPlace_eq m e n f
    have hzeros : 52 + (n.log2 + 1) ≤ m.log2 + (e - f - quotientPlace m e n f).toNat := by omega
    calc 2 ^ 52 * n ≤ 2 ^ 52 * 2 ^ (n.log2 + 1) :=
          Nat.mul_le_mul_left _ Nat.lt_log2_self.le
      _ = 2 ^ (52 + (n.log2 + 1)) := (pow_add 2 52 _).symm
      _ ≤ 2 ^ (m.log2 + (e - f - quotientPlace m e n f).toNat) :=
          Nat.pow_le_pow_right (by norm_num) hzeros
      _ = 2 ^ m.log2 * 2 ^ (e - f - quotientPlace m e n f).toNat := pow_add 2 _ _
      _ ≤ dividend m e n f := Nat.mul_le_mul_right _ (Nat.log2_self_le hm.ne')

/-- The quotient with the two digits that stand for what is left. -/
def extendedQuotient (m : ℕ) (e : ℤ) (n : ℕ) (f : ℤ) : ℕ :=
  4 * (dividend m e n f / n) + residue (accuracyOfFraction (dividend m e n f % n) n)

/-- A double that the quotient reaches at most has no digits behind the place. -/
theorem quotient_le_of_le {m n : ℕ} {e f : ℤ} (hm : 0 < m) (hn : 0 < n) {b : ℚ}
    (hb : Representable b) (h : (m : ℚ) * 2 ^ e / (n * 2 ^ f) ≤ b) :
    (extendedQuotient m e n f : ℚ) * 2 ^ (quotientPlace m e n f - 2) ≤ b := by
  obtain ⟨k, g, hk, hg, rfl⟩ := hb
  have hdigits := quotient_digits e f hm hn
  rw [quotient_eq m e hn f] at h
  unfold extendedQuotient
  generalize dividend m e n f = N at h hdigits ⊢
  generalize quotientPlace m e n f = D at h hdigits ⊢
  have hn' : (0 : ℚ) < n := by exact_mod_cast hn
  have hpos : (0 : ℚ) < 2 ^ D := by positivity
  have hplace : D ≤ g := by
    by_contra hlt
    have hmany : 2 ^ 52 ≤ N / n := hdigits.resolve_left (by omega)
    have hfloor : ((N / n : ℕ) : ℚ) ≤ N / n := Nat.cast_div_le
    have hless := scaled_lt hk hmany (not_le.mp hlt)
    have hgreater := mul_le_mul_of_nonneg_right hfloor hpos.le
    exact absurd (hgreater.trans h) (not_le.mpr hless)
  obtain ⟨j, rfl⟩ : ∃ j : ℕ, g = D + j := ⟨(g - D).toNat, by omega⟩
  have hwhole : N ≤ k * 2 ^ j * n := by
    rw [zpow_add₀ two_ne_zero, zpow_natCast, mul_comm (2 ^ D), ← mul_assoc] at h
    have hscaled := (div_le_iff₀ hn').mp (le_of_mul_le_mul_right h hpos)
    exact_mod_cast hscaled
  have hextended : 4 * (N / n) + residue (accuracyOfFraction (N % n) n) ≤ 4 * (k * 2 ^ j) := by
    have hsplit : n * (N / n) + N % n = N := Nat.div_add_mod N n
    rcases Nat.eq_zero_or_pos (N % n) with hnone | hrest
    · have hle : N / n ≤ k * 2 ^ j := Nat.div_le_of_le_mul (by rwa [mul_comm] at hwhole)
      have hexact : residue (accuracyOfFraction (N % n) n) = 0 := by
        rw [hnone]
        rfl
      omega
    · have hlt : N / n < k * 2 ^ j := by
        refine lt_of_mul_lt_mul_left (a := n) ?_ (Nat.zero_le n)
        rw [mul_comm n (k * 2 ^ j)]
        omega
      have hle := residue_le (accuracyOfFraction (N % n) n)
      omega
  have hextended' : ((4 * (N / n) + residue (accuracyOfFraction (N % n) n) : ℕ) : ℚ) ≤
      4 * (k * 2 ^ j) := by exact_mod_cast hextended
  calc ((4 * (N / n) + residue (accuracyOfFraction (N % n) n) : ℕ) : ℚ) * 2 ^ (D - 2)
      ≤ 4 * (k * 2 ^ j) * 2 ^ (D - 2) := mul_le_mul_of_nonneg_right hextended' (by positivity)
    _ = k * 2 ^ (D + j) := by
      rw [zpow_sub₀ two_ne_zero, zpow_add₀ two_ne_zero, zpow_natCast]
      ring

theorem extendedQuotient_pos {m n : ℕ} (e f : ℤ) (hm : 0 < m) (hn : 0 < n) :
    0 < extendedQuotient m e n f := by
  have hdividend : 0 < dividend m e n f := Nat.mul_pos hm (Nat.two_pow_pos _)
  unfold extendedQuotient
  rcases Nat.eq_zero_or_pos (dividend m e n f / n) with hnone | hsome
  · have hrest : dividend m e n f % n ≠ 0 := by
      rw [Nat.mod_eq_of_lt ((Nat.div_eq_zero_iff_lt hn).mp hnone)]
      exact hdividend.ne'
    have hresidue : 0 < residue (accuracyOfFraction (dividend m e n f % n) n) := by
      unfold accuracyOfFraction
      rw [if_neg hrest]
      cases compare (2 * (dividend m e n f % n)) n <;> decide
    omega
  · omega

/-- Two doubles above zero are divided by rounding the quotient with its two digits more. -/
theorem div_finite {m n : ℕ} {e f : ℤ} (hm : 0 < m) (hn : 0 < n) :
    quotientPlace m e n f - 2 ≤ lastPlace (extendedQuotient m e n f) (quotientPlace m e n f - 2) ∧
    div Format.binary64 (.finite .positive m e hm) (.finite .positive n f hn) =
      roundWithAccuracy Format.binary64 .positive (extendedQuotient m e n f)
        (quotientPlace m e n f - 2) .exact := by
  have hdivided : div Format.binary64 (.finite .positive m e hm) (.finite .positive n f hn) =
      roundWithAccuracy Format.binary64 .positive
        (divCore Format.binary64 m e n f).1 (divCore Format.binary64 m e n f).2.1
        (divCore Format.binary64 m e n f).2.2 := rfl
  have hdigits := quotient_digits e f hm hn
  have hfew : quotientPlace m e n f ≤ -1074 ∨ dividend m e n f / n ≠ 0 :=
    hdigits.imp_right fun hmany => by omega
  have hplace : quotientPlace m e n f ≤
      lastPlace (dividend m e n f / n) (quotientPlace m e n f) := by
    rw [lastPlace_eq]
    rcases hdigits with hleast | hmany
    · omega
    · have hlog : 52 ≤ (dividend m e n f / n).log2 := (Nat.le_log2 (by omega)).mpr hmany
      omega
  rw [hdivided, divCore_eq]
  refine ⟨?_, roundWithAccuracy_residue _ hplace hfew _⟩
  unfold extendedQuotient
  rw [lastPlace_residue (residue_le _) hfew]
  omega

/-- **A fraction is rounded within every bound that is a double.** -/
theorem rounds_div (hx : x.isFinite = true) (hy : y.isFinite = true) (hx0 : 0 ≤ rational x)
    (hlt : rational x < rational y) : (x / y).isFinite = true ∧ 0 ≤ rational (x / y) ∧
      ∀ b, Representable b → rational x / rational y ≤ b → rational (x / y) ≤ b := by
  obtain ⟨n, f, hn, hy', hyvalue, -⟩ := exists_scaled hy (hx0.trans_lt hlt)
  have hpacked : ∀ {u a}, div Format.binary64 x.toModel.unpack y.toModel.unpack = u →
      Canonical u → number? u = some a → (x / y).isFinite = true ∧ rational (x / y) = a := by
    rintro u a rfl hu ha
    exact ⟨isFinite_pack hu ha, rational_packed rfl hu ha⟩
  rcases hx0.eq_or_lt with hzero | hpos
  · obtain ⟨t, ht⟩ := zero_of_rational hx hzero.symm
    obtain ⟨hfinite, hvalue⟩ := hpacked (by rw [ht, hy']; rfl) (.zero (t / .positive)) rfl
    rw [hvalue, ← hzero, zero_div]
    exact ⟨hfinite, le_rfl, fun b _ hb => hb⟩
  · obtain ⟨m, e, hm, hx', hxvalue, -⟩ := exists_scaled hx hpos
    obtain ⟨hplace, hdivided⟩ := div_finite (e := e) (f := f) hm hn
    rw [← hx', ← hy', roundWithAccuracy_eq _ hplace] at hdivided
    have hsome := extendedQuotient_pos e f hm hn
    -- One is a double, so the last place of a fraction is before that of one.
    have hsmall : lastPlace (extendedQuotient m e n f) (quotientPlace m e n f - 2) ≤ -52 := by
      have hone : ((2 ^ 52 : ℕ) : ℚ) * 2 ^ (-52 : ℤ) = 1 := by norm_num
      have hfraction : (m : ℚ) * 2 ^ e / (n * 2 ^ f) ≤ 1 := by
        rw [← hxvalue, ← hyvalue]
        exact div_le_one_of_le₀ hlt.le (hx0.trans hlt.le)
      have hbelow := quotient_le_of_le hm hn (representable_natCast (n := 1) (by norm_num))
        (by rwa [Nat.cast_one])
      rw [Nat.cast_one, ← hone] at hbelow
      exact (lastPlace_mono hsome.ne' hbelow).trans
        (lastPlace_normal le_rfl (by norm_num) (by norm_num)).le
    obtain ⟨hfinite, hvalue⟩ := hpacked hdivided (canonical_carried _ hplace (by omega))
      (number?_carried _ _ _)
    have hrounds := Rounds.scaled .positive hsome.ne' hplace
    rw [← hvalue] at hrounds
    refine ⟨hfinite, hrounds.nonneg ?_, fun b hb hle => ?_⟩
    · show (0 : ℚ) ≤ ((extendedQuotient m e n f : ℤ) : ℚ) * 2 ^ (quotientPlace m e n f - 2)
      positivity
    · rw [hxvalue, hyvalue] at hle
      exact hrounds.mono hb.rounds (quotient_le_of_le hm hn hb hle)

end Double
end Brokerage
