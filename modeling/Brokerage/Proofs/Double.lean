/-
# Doubles as numbers

A finite double is a mantissa times a power of two, and in one way only once the mantissa
has been normalised (`Canonical`). Reading the fields of a double gives such a pair, and
putting them back gives the double (`unpack_pack`). Rounding a number `M · 2 ^ E` shifts
the mantissa to the exponent that the size of the number calls for, so that

* a number that needs no more than 53 digits there is kept as it is (`round_exact`);
* any other moves by no more than one unit of its last place (`roundWithAccuracy_near`).

Key definitions: `number?`, `Canonical`, `lastPlace`, `carried`.
Key theorems: `canonical_unpack`, `unpack_pack`, `compare_number`, `classify_number`,
`roundWithAccuracy_eq`, `roundWithAccuracy_near`, `round_exact`.
-/
import Mathlib
import Brokerage.Decimal.Binary

namespace Brokerage
namespace Double

open Float.Model (Format totalExponent UnpackedFloat)
open Float.Model.UnpackedFloat

/-- The number that a double stands for; none if it is not finite. -/
def number? : UnpackedFloat → Option ℚ
  | .zero _ => some 0
  | .finite s m e _ => some ((s.apply m : ℤ) * (2 : ℚ) ^ e)
  | _ => none

/-- The doubles as they are read off their fields: the mantissa has 53 digits, or fewer at
the least exponent. -/
inductive Canonical : UnpackedFloat → Prop
  | notANumber : Canonical .notANumber
  | infinity (s : Sign) : Canonical (.infinity s)
  | zero (s : Sign) : Canonical (.zero s)
  | subnormal (s : Sign) (m : ℕ) (hpos : 0 < m) (hlt : m < 2 ^ 52) :
    Canonical (.finite s m (-1074) hpos)
  | normal (s : Sign) (m : ℕ) (e : ℤ) (hpos : 0 < m) (hle : 2 ^ 52 ≤ m) (hlt : m < 2 ^ 53)
      (hfirst : -1074 ≤ e) (hlast : e ≤ 971) : Canonical (.finite s m e hpos)

/-! ### Fields -/

theorem toNat_one_append (v : BitVec 52) : (1#1 ++ v).toNat = 2 ^ 52 + v.toNat := by
  rw [BitVec.toNat_append, ← Nat.shiftLeft_add_eq_or_of_lt v.isLt]
  rfl

/-- The fields of a double tell a canonical pair. -/
theorem canonical_unpack (b : BitVec Format.binary64.numBits) :
    Canonical (unpack Format.binary64 b) := by
  have hmantissa : (unpackMantissa b).toNat < 2 ^ 52 := (unpackMantissa b).isLt
  have hexponent : (unpackExponent b).toNat < 2048 := (unpackExponent b).isLt
  have hbias : ((Format.binary64.exponentBias : ℕ) : ℤ) +
      (Format.binary64.mantissaBitsWithoutImplicit : ℕ) = 1075 := rfl
  unfold unpack
  dsimp only
  by_cases hlast : unpackExponent b = -1#11
  · rw [if_pos hlast]
    by_cases hzero : unpackMantissa b = 0#52
    · rw [if_pos hzero]
      exact .infinity _
    · rw [if_neg hzero]
      exact .notANumber
  · rw [if_neg hlast]
    by_cases hfirst : unpackExponent b = 0#11
    · rw [if_pos hfirst]
      by_cases hzero : unpackMantissa b = 0#52
      · rw [dif_pos hzero]
        exact .zero _
      · have he : ((unpackExponent b).toNat : ℤ) - ((Format.binary64.exponentBias : ℕ) +
            (Format.binary64.mantissaBitsWithoutImplicit : ℕ)) + 1 = -1074 := by
          rw [hfirst, hbias]
          rfl
        rw [dif_neg hzero, he]
        exact .subnormal _ _ _ hmantissa
    · rw [if_neg hfirst]
      have hbelow : (unpackExponent b).toNat ≠ 2047 := fun h => hlast (BitVec.eq_of_toNat_eq h)
      have habove : (unpackExponent b).toNat ≠ 0 := fun h => hfirst (BitVec.eq_of_toNat_eq h)
      have happend : (1#1 ++ unpackMantissa b).toNat = 2 ^ 52 + (unpackMantissa b).toNat :=
        toNat_one_append _
      refine .normal _ _ _ _ ?_ ?_ ?_ ?_
      · omega
      · omega
      · rw [hbias]
        omega
      · rw [hbias]
        omega

theorem unpackSign_packComponents (s : Sign) (e : BitVec 11) (m : BitVec 52) :
    Sign.ofBitVec (unpackSign (packComponents Format.binary64 s e m)) = s := by
  show Sign.ofBitVec ((s.toBitVec ++ e ++ m).extractLsb' 63 1) = s
  rw [BitVec.extractLsb'_append_eq_of_le (by decide),
    BitVec.extractLsb'_append_eq_of_le (by decide)]
  cases s <;> rfl

/-- A mantissa of 53 digits. -/
theorem log2_normal {m : ℕ} (hle : 2 ^ 52 ≤ m) (hlt : m < 2 ^ 53) : m.log2 = 52 := by
  have hm : m ≠ 0 := by omega
  have hlow : 52 ≤ m.log2 := (Nat.le_log2 hm).mpr hle
  have hhigh : m.log2 < 53 := (Nat.log2_lt hm).mpr hlt
  omega

/-- The exponent as it is put into its field. -/
theorem biased (e : ℤ) : e + ((Format.binary64.exponentBias : ℕ) : ℤ) +
    ((Format.binary64.mantissaBitsWithoutImplicit : ℕ) : ℤ) = e + 1075 := by
  rw [add_assoc]
  rfl

theorem unpack_pack_normal (s : Sign) {m : ℕ} {e : ℤ} (hpos : 0 < m) (hle : 2 ^ 52 ≤ m)
    (hlt : m < 2 ^ 53) (hfirst : -1074 ≤ e) (hlast : e ≤ 971) :
    unpack Format.binary64 (pack Format.binary64 (.finite s m e hpos)) =
      .finite s m e hpos := by
  have hfield : (BitVec.ofNat 11 (e + 1075).toNat).toNat = (e + 1075).toNat := by
    rw [BitVec.toNat_ofNat]
    omega
  have hnotLast : BitVec.ofNat 11 (e + 1075).toNat ≠ -1#11 := fun h => by
    have htop : (e + 1075).toNat = 2047 := hfield.symm.trans (congrArg BitVec.toNat h)
    omega
  have hnotFirst : BitVec.ofNat 11 (e + 1075).toNat ≠ 0#11 := fun h => by
    have hzero : (e + 1075).toNat = 0 := hfield.symm.trans (congrArg BitVec.toNat h)
    omega
  have hmantissa : (1#1 ++ BitVec.ofNat 52 m).toNat = m := by
    rw [toNat_one_append, BitVec.toNat_ofNat]
    omega
  have hexponent : ((e + 1075).toNat : ℤ) - (((Format.binary64.exponentBias : ℕ) : ℤ) +
      ((Format.binary64.mantissaBitsWithoutImplicit : ℕ) : ℤ)) = e := by
    show ((e + 1075).toNat : ℤ) - (1023 + 52) = e
    omega
  have hbias := biased e
  unfold pack
  simp only [hbias, log2_normal hle hlt]
  rw [if_neg (by show ¬ 2 ^ 11 ≤ _; omega),
    if_pos (show 52 + 1 = Format.binary64.mantissaBits from rfl)]
  unfold unpack
  simp only [unpackMantissa_packComponents, unpackExponent_packComponents,
    unpackSign_packComponents]
  rw [if_neg hnotLast, if_neg hnotFirst]
  simp only [hmantissa, hfield, hexponent]

theorem unpack_pack_subnormal (s : Sign) {m : ℕ} (hpos : 0 < m) (hlt : m < 2 ^ 52) :
    unpack Format.binary64 (pack Format.binary64 (.finite s m (-1074) hpos)) =
      .finite s m (-1074) hpos := by
  have hlog : ¬ m.log2 + 1 = Format.binary64.mantissaBits := by
    have hshort : m.log2 < 52 := (Nat.log2_lt (by omega)).mpr hlt
    show ¬ m.log2 + 1 = 53
    omega
  have hmantissa : (BitVec.ofNat 52 m).toNat = m := by
    rw [BitVec.toNat_ofNat]
    omega
  have hnonzero : BitVec.ofNat 52 m ≠ 0#52 := fun h => by
    have hzero : m = 0 := hmantissa.symm.trans (congrArg BitVec.toNat h)
    omega
  unfold pack
  rw [if_neg (by decide), if_neg hlog]
  unfold unpack
  simp only [unpackMantissa_packComponents, unpackExponent_packComponents,
    unpackSign_packComponents]
  rw [if_neg (by decide), if_pos trivial, dif_neg hnonzero]
  simp only [hmantissa]
  rfl

/-- **Putting the fields together and reading them again** changes nothing. -/
theorem unpack_pack {u : UnpackedFloat} (h : Canonical u) :
    unpack Format.binary64 (pack Format.binary64 u) = u := by
  cases h with
  | notANumber => rfl
  | infinity s => cases s <;> rfl
  | zero s => cases s <;> rfl
  | subnormal s m hpos hlt => exact unpack_pack_subnormal s hpos hlt
  | normal s m e hpos hle hlt hfirst hlast =>
    exact unpack_pack_normal s hpos hle hlt hfirst hlast

/-! ### Order -/

/-- A power of two, told from a smaller exponent on. -/
theorem two_zpow_split {e f : ℤ} (h : f ≤ e) : (2 : ℚ) ^ e = 2 ^ (e - f).toNat * 2 ^ f := by
  rw [← zpow_natCast, ← zpow_add₀ two_ne_zero, Int.toNat_of_nonneg (by omega), sub_add_cancel]

/-- At a greater exponent a canonical mantissa stands for a greater number. -/
theorem scaled_lt {m n : ℕ} {e f : ℤ} (hm : m < 2 ^ 53) (hn : 2 ^ 52 ≤ n) (h : e < f) :
    (m : ℚ) * 2 ^ e < n * 2 ^ f := by
  have hm' : (m : ℚ) < 2 ^ 53 := by exact_mod_cast hm
  have hn' : (2 : ℚ) ^ 52 ≤ n := by exact_mod_cast hn
  have hpos : (0 : ℚ) < 2 ^ e := by positivity
  calc (m : ℚ) * 2 ^ e < 2 ^ 53 * 2 ^ e := mul_lt_mul_of_pos_right hm' hpos
    _ = 2 ^ 52 * 2 ^ (e + 1) := by rw [zpow_add_one₀ two_ne_zero]; ring
    _ ≤ n * 2 ^ f := by
      gcongr
      · norm_num
      · omega

/-- Canonical mantissas of one sign compare as the numbers do. -/
theorem compare_scaled {m n : ℕ} {e f : ℤ} {s t : Sign} {hm : 0 < m} {hn : 0 < n}
    (hu : Canonical (.finite s m e hm)) (hv : Canonical (.finite t n f hn)) :
    (compare e f).then (compare m n) = compare ((m : ℚ) * 2 ^ e) (n * 2 ^ f) := by
  have hbounds : ∀ {s : Sign} {m : ℕ} {e : ℤ} {hm : 0 < m}, Canonical (.finite s m e hm) →
      m < 2 ^ 53 ∧ -1074 ≤ e ∧ (-1074 < e → 2 ^ 52 ≤ m) := by
    intro s m e hm h
    cases h with
    | subnormal s m hpos hlt => exact ⟨by omega, by omega, by omega⟩
    | normal s m e hpos hle hlt hfirst hlast => exact ⟨hlt, hfirst, fun _ => hle⟩
  obtain ⟨hmlt, hefirst, hmle⟩ := hbounds hu
  obtain ⟨hnlt, hffirst, hnle⟩ := hbounds hv
  rcases lt_trichotomy e f with h | rfl | h
  · rw [compare_lt_iff_lt.mpr h, compare_lt_iff_lt.mpr (scaled_lt hmlt (hnle (by omega)) h)]
    rfl
  · rw [compare_eq_iff_eq.mpr rfl]
    have hpos : (0 : ℚ) < 2 ^ e := by positivity
    rcases lt_trichotomy m n with h | rfl | h
    · have h' : (m : ℚ) < n := by exact_mod_cast h
      rw [compare_lt_iff_lt.mpr h, compare_lt_iff_lt.mpr (mul_lt_mul_of_pos_right h' hpos)]
      rfl
    · rw [compare_eq_iff_eq.mpr rfl, compare_eq_iff_eq.mpr rfl]
      rfl
    · have h' : (n : ℚ) < m := by exact_mod_cast h
      rw [compare_gt_iff_gt.mpr h, compare_gt_iff_gt.mpr (mul_lt_mul_of_pos_right h' hpos)]
      rfl
  · rw [compare_gt_iff_gt.mpr h, compare_gt_iff_gt.mpr (scaled_lt hnlt (hmle (by omega)) h)]
    rfl

/-- The number of a signed mantissa. -/
theorem number?_finite (s : Sign) {m : ℕ} {e : ℤ} (hm : 0 < m) :
    ∃ r : ℚ, 0 < r ∧ r = m * 2 ^ e ∧
      number? (.finite s m e hm) = some (match s with | .positive => r | .negative => -r) := by
  have hpos : (0 : ℚ) < m := by exact_mod_cast hm
  refine ⟨m * 2 ^ e, by positivity, rfl, ?_⟩
  cases s with
  | positive => simp [number?, Sign.apply]
  | negative => simp [number?, Sign.apply]

/-- **Finite doubles compare as the numbers that they stand for.** -/
theorem compare_number {u v : UnpackedFloat} (hu : Canonical u) (hv : Canonical v) {a b : ℚ}
    (ha : number? u = some a) (hb : number? v = some b) :
    u.compare v = some (compare a b) := by
  rcases u with _ | _ | s | ⟨s, m, e, hm⟩
  · cases ha
  · cases ha
  · cases ha
    rcases v with _ | _ | t | ⟨t, n, f, hn⟩
    · cases hb
    · cases hb
    · cases hb
      exact congrArg some (compare_eq_iff_eq.mpr rfl).symm
    · obtain ⟨r, hr, -, hnumber⟩ := number?_finite (e := f) t hn
      rw [hnumber] at hb
      cases hb
      cases t with
      | positive => exact congrArg some (compare_lt_iff_lt.mpr hr).symm
      | negative => exact congrArg some (compare_gt_iff_gt.mpr (by linarith)).symm
  · obtain ⟨r, hr, hreq, hnumber⟩ := number?_finite (e := e) s hm
    rw [hnumber] at ha
    cases ha
    rcases v with _ | _ | t | ⟨t, n, f, hn⟩
    · cases hb
    · cases hb
    · cases hb
      cases s with
      | positive => exact congrArg some (compare_gt_iff_gt.mpr hr).symm
      | negative => exact congrArg some (compare_lt_iff_lt.mpr (by linarith)).symm
    · obtain ⟨q, hq, hqeq, hnumber⟩ := number?_finite (e := f) t hn
      rw [hnumber] at hb
      cases hb
      have hscaled := compare_scaled hu hv
      rw [← hreq, ← hqeq] at hscaled
      cases s with
      | positive =>
        cases t with
        | positive => exact congrArg some hscaled
        | negative => exact congrArg some (compare_gt_iff_gt.mpr (by linarith)).symm
      | negative =>
        cases t with
        | positive => exact congrArg some (compare_lt_iff_lt.mpr (by linarith)).symm
        | negative =>
          show some ((compare e f).then (compare m n)).swap = some (compare (-r) (-q))
          rw [hscaled]
          rcases lt_trichotomy r q with h | h | h
          · rw [compare_lt_iff_lt.mpr h, compare_gt_iff_gt.mpr (neg_lt_neg h)]
            rfl
          · rw [compare_eq_iff_eq.mpr h, compare_eq_iff_eq.mpr (congrArg _ h)]
            rfl
          · rw [compare_gt_iff_gt.mpr h, compare_lt_iff_lt.mpr (neg_lt_neg h)]
            rfl

/-! ### The exact value -/

theorem abs_number?_finite (s : Sign) {m : ℕ} {e : ℤ} (hm : 0 < m) :
    ∃ a, number? (.finite s m e hm) = some a ∧ |a| = m * 2 ^ e := by
  obtain ⟨r, hr, hvalue, hsigned⟩ := number?_finite s hm (e := e)
  rw [← hvalue, hsigned]
  cases s with
  | positive => exact ⟨r, rfl, abs_of_pos hr⟩
  | negative => exact ⟨-r, rfl, (abs_neg r).trans (abs_of_pos hr)⟩

/-- The last exponent is that of the infinities and of what is no number. -/
theorem not_isFinite_of_last {b : BitVec Format.binary64.numBits} (h : unpackExponent b = -1#11) :
    (unpack Format.binary64 b).isFinite = false := by
  have hunpack : unpack Format.binary64 b =
      if unpackMantissa b = 0#52 then .infinity (.ofBitVec (unpackSign b)) else .notANumber :=
    if_pos h
  rw [hunpack]
  split <;> rfl

/-- **The exact value that is written of a double** is the number that it stands for. -/
theorem classify_number {x : Float} (hx : x.isFinite = true) :
    ∃ negative b a, Decimal.classify x = .finite negative b ∧
      number? x.toModel.unpack = some a ∧ |a| = b.mantissa * 2 ^ b.exponent := by
  obtain ⟨w, hw⟩ : ∃ w : BitVec Format.binary64.numBits, w = x.toModel.toBits.toBitVec :=
    ⟨_, rfl⟩
  have hunpack : x.toModel.unpack = unpack Format.binary64 w := by
    rw [hw]
    rfl
  have hscale : (unpackExponent w).toNat = x.toBits.toNat / Decimal.raised 2 52 % 2048 := by
    rw [hw]
    show x.toBits.toNat >>> 52 % 2 ^ 11 = _
    rw [Nat.shiftRight_eq_div_pow]
    rfl
  have hfraction : (unpackMantissa w).toNat = x.toBits.toNat % Decimal.raised 2 52 := by
    rw [hw]
    show x.toBits.toNat >>> 0 % 2 ^ 52 = _
    rfl
  have hbias : ((Format.binary64.exponentBias : ℕ) : ℤ) +
      (Format.binary64.mantissaBitsWithoutImplicit : ℕ) = 1075 := rfl
  have hnotLast : unpackExponent w ≠ -1#11 := by
    intro hlast
    have hinfinite : x.isFinite = (unpack Format.binary64 w).isFinite := by
      rw [← hunpack]
      rfl
    rw [hinfinite, not_isFinite_of_last hlast] at hx
    cases hx
  have hbelow : (x.toBits.toNat / Decimal.raised 2 52 % 2048 == 2047) = false := by
    rw [beq_eq_false_iff_ne, ← hscale]
    exact fun h => hnotLast (BitVec.eq_of_toNat_eq h)
  rw [hunpack]
  unfold Decimal.classify Decimal.classifyBits unpack
  simp only [hbelow, Bool.false_eq_true, if_false, if_neg hnotLast, hbias]
  by_cases hfirst : unpackExponent w = 0#11
  · have hzero : (x.toBits.toNat / Decimal.raised 2 52 % 2048 == 0) = true := by
      rw [beq_iff_eq, ← hscale, hfirst]
      rfl
    rw [if_pos hzero, if_pos hfirst, ← hfraction]
    by_cases hnone : unpackMantissa w = 0#52
    · rw [dif_pos hnone, hnone]
      exact ⟨_, _, 0, rfl, rfl, by simp⟩
    · obtain ⟨a, ha, hvalue⟩ := abs_number?_finite (Sign.ofBitVec (unpackSign w)) (e := -1074)
        (show 0 < (unpackMantissa w).toNat by simpa [BitVec.toNat_pos, BitVec.pos_iff_ne_zero])
      rw [dif_neg hnone]
      refine ⟨_, _, a, rfl, ?_, hvalue⟩
      rw [← ha, hfirst]
      rfl
  · have hzero : (x.toBits.toNat / Decimal.raised 2 52 % 2048 == 0) = false := by
      rw [beq_eq_false_iff_ne, ← hscale]
      exact fun h => hfirst (BitVec.eq_of_toNat_eq h)
    obtain ⟨a, ha, hvalue⟩ := abs_number?_finite (Sign.ofBitVec (unpackSign w))
      (e := ((unpackExponent w).toNat : ℤ) - 1075)
      (show 0 < (1#1 ++ unpackMantissa w).toNat by rw [toNat_one_append]; omega)
    rw [toNat_one_append] at hvalue
    rw [hzero, if_neg hfirst, ← hfraction, ← hscale]
    exact ⟨_, _, a, rfl, ha, hvalue⟩

/-! ### Rounding -/

/-- The exponent of the last place of `M · 2 ^ E`, which has 53 digits from there on. -/
def lastPlace (M : ℕ) (E : ℤ) : ℤ :=
  Format.binary64.targetExponent (totalExponent M E)

theorem lastPlace_eq (M : ℕ) (E : ℤ) : lastPlace M E = max (M.log2 + 1 + E - 53) (-1074) := rfl

/-- A mantissa whose low digits are all zero loses nothing when they are dropped. -/
theorem shiftRight_exact (m : ℕ) : ∀ k : ℕ,
    ExtendedMantissa.ofMantissaAndAccuracy (m * 2 ^ k) .exact >>> k =
      ExtendedMantissa.ofMantissaAndAccuracy m .exact
  | 0 => by
    rw [pow_zero, mul_one]
    rfl
  | k + 1 => by
    have ih := shiftRight_exact (m * 2) k
    have hsplit : m * 2 ^ (k + 1) = m * 2 * 2 ^ k := by ring
    rw [hsplit]
    show ExtendedMantissa.shiftRightOne (ExtendedMantissa.ofMantissaAndAccuracy (m * 2 * 2 ^ k)
      .exact >>> k) = _
    rw [ih]
    unfold ExtendedMantissa.shiftRightOne ExtendedMantissa.ofMantissaAndAccuracy
    simp

theorem mantissa_shiftRight (x : ExtendedMantissa) : ∀ k : ℕ,
    (x >>> k).mantissa = x.mantissa / 2 ^ k
  | 0 => (Nat.div_one _).symm
  | k + 1 => by
    show (x >>> k).mantissa / 2 = _
    rw [mantissa_shiftRight x k, Nat.div_div_eq_div_mul, pow_succ]

/-- Rounding leaves a mantissa as it is or goes to the next. -/
theorem roundedMantissa_bounds (x : ExtendedMantissa) :
    x.mantissa ≤ x.roundedMantissa ∧ x.roundedMantissa ≤ x.mantissa + 1 := by
  unfold ExtendedMantissa.roundedMantissa
  cases x.accuracy with
  | exact => exact ⟨le_refl _, Nat.le_succ _⟩
  | inexact o =>
    cases o with
    | lt => exact ⟨le_refl _, Nat.le_succ _⟩
    | eq =>
      show x.mantissa ≤ x.mantissa + x.mantissa % 2 ∧ x.mantissa + x.mantissa % 2 ≤ _
      omega
    | gt => exact ⟨Nat.le_succ _, le_refl _⟩

/-- What becomes of a rounded mantissa: one that has got a digit more is carried. -/
def carried (s : Sign) (r : ℕ) (T : ℤ) : UnpackedFloat :=
  if h : r = 0 then .zero s
  else if r = 2 ^ 53 then .finite s (2 ^ 52) (T + 1) (by decide)
  else .finite s r T (Nat.pos_of_ne_zero h)

/-- The mantissa of `M · 2 ^ E` at its last place. -/
def roundedAt (M : ℕ) (E : ℤ) : ℕ :=
  (ExtendedMantissa.ofMantissaAndAccuracy M .exact >>>
    (lastPlace M E - E).toNat).roundedMantissa

theorem roundedAt_bounds (M : ℕ) (E : ℤ) :
    M / 2 ^ (lastPlace M E - E).toNat ≤ roundedAt M E ∧
      roundedAt M E ≤ M / 2 ^ (lastPlace M E - E).toNat + 1 := by
  have h := roundedMantissa_bounds (ExtendedMantissa.ofMantissaAndAccuracy M .exact >>>
    (lastPlace M E - E).toNat)
  rwa [mantissa_shiftRight] at h

theorem lt_two_pow {M : ℕ} {E : ℤ} : M < 2 ^ 53 * 2 ^ (lastPlace M E - E).toNat := by
  have hlast : (M.log2 : ℤ) + 1 + E - 53 ≤ lastPlace M E := le_max_left _ _
  calc M < 2 ^ (M.log2 + 1) := Nat.lt_log2_self
    _ ≤ 2 ^ (53 + (lastPlace M E - E).toNat) := Nat.pow_le_pow_right (by norm_num) (by omega)
    _ = 2 ^ 53 * 2 ^ (lastPlace M E - E).toNat := pow_add _ _ _

theorem roundedAt_le (M : ℕ) (E : ℤ) : roundedAt M E ≤ 2 ^ 53 := by
  obtain ⟨-, hle⟩ := roundedAt_bounds M E
  have hdiv : M / 2 ^ (lastPlace M E - E).toNat < 2 ^ 53 :=
    Nat.div_lt_of_lt_mul (by rw [mul_comm]; exact lt_two_pow)
  omega

/-- A rounded mantissa is carried if it has got a digit more. -/
theorem shiftToTargetExponent_rounded {r : ℕ} {T : ℤ} (hr : r ≤ 2 ^ 53) (hT : -1074 ≤ T) :
    shiftToTargetExponent Format.binary64 r T .exact =
      if r = 2 ^ 53 then (ExtendedMantissa.ofMantissaAndAccuracy (2 ^ 52) .exact, T + 1)
      else (ExtendedMantissa.ofMantissaAndAccuracy r .exact, T) := by
  have hshift : shiftToTargetExponent Format.binary64 r T .exact =
      (ExtendedMantissa.ofMantissaAndAccuracy r .exact >>> (lastPlace r T - T).toNat,
        T + (lastPlace r T - T).toNat) := rfl
  rw [hshift]
  by_cases hcarry : r = 2 ^ 53
  · have hlog : (2 ^ 53 : ℕ).log2 = 53 := Nat.log2_two_pow
    have hlast : lastPlace (2 ^ 53) T = T + 1 := by
      rw [lastPlace_eq, hlog]
      omega
    have hone : (T + 1 - T).toNat = 1 := by omega
    have hexact := shiftRight_exact (2 ^ 52) 1
    rw [if_pos hcarry, hcarry, hlast, hone]
    exact Prod.ext hexact rfl
  · have hlast : lastPlace r T ≤ T := by
      rw [lastPlace_eq]
      by_cases hzero : r = 0
      · rw [hzero, Nat.log2_zero]
        omega
      · have hlog : r.log2 < 53 := (Nat.log2_lt hzero).mpr (by omega)
        omega
    have hnone : (lastPlace r T - T).toNat = 0 := by omega
    rw [if_neg hcarry, hnone]
    exact Prod.ext rfl (add_zero T)

/-- A mantissa that has been shifted to its exponent. -/
def placed (s : Sign) (x : ExtendedMantissa × ℤ) : UnpackedFloat :=
  if h : x.1.mantissa = 0 then .zero s else .finite s x.1.mantissa x.2 (Nat.pos_of_ne_zero h)

/-- **Rounding is taking the mantissa at the last place.** -/
theorem roundWithAccuracy_eq (s : Sign) {M : ℕ} {E : ℤ} (hE : E ≤ lastPlace M E) :
    roundWithAccuracy Format.binary64 s M E .exact = carried s (roundedAt M E) (lastPlace M E) := by
  have hfirst : shiftToTargetExponent Format.binary64 M E .exact =
      (ExtendedMantissa.ofMantissaAndAccuracy M .exact >>> (lastPlace M E - E).toNat,
        lastPlace M E) := by
    refine Prod.ext rfl ?_
    show E + ((lastPlace M E - E).toNat : ℤ) = lastPlace M E
    omega
  have hsecond := shiftToTargetExponent_rounded (roundedAt_le M E)
    (show -1074 ≤ lastPlace M E from le_max_right _ _)
  show placed s (shiftToTargetExponent Format.binary64
    (shiftToTargetExponent Format.binary64 M E .exact).1.roundedMantissa
    (shiftToTargetExponent Format.binary64 M E .exact).2 .exact) = _
  rw [hfirst]
  show placed s (shiftToTargetExponent Format.binary64 (roundedAt M E) (lastPlace M E) .exact) = _
  rw [hsecond]
  unfold carried
  by_cases hcarry : roundedAt M E = 2 ^ 53
  · rw [if_pos hcarry, dif_neg (by omega), if_pos hcarry]
    rfl
  · rw [if_neg hcarry]
    simp only [if_neg hcarry]
    rfl

theorem log2_mul_two_pow {m : ℕ} (hm : m ≠ 0) (k : ℕ) : (m * 2 ^ k).log2 = m.log2 + k := by
  have hpos : 0 < 2 ^ k := Nat.two_pow_pos k
  refine (Nat.log2_eq_iff (Nat.mul_ne_zero hm hpos.ne')).mpr ⟨?_, ?_⟩
  · rw [pow_add]
    exact Nat.mul_le_mul_right _ (Nat.log2_self_le hm)
  · rw [add_right_comm, pow_add]
    exact Nat.mul_lt_mul_of_pos_right Nat.lt_log2_self hpos

/-- The last place of a number depends on the number only. -/
theorem lastPlace_mul_two_pow {m : ℕ} (hm : m ≠ 0) (E : ℤ) (k : ℕ) :
    lastPlace (m * 2 ^ k) E = lastPlace m (E + k) := by
  rw [lastPlace_eq, lastPlace_eq, log2_mul_two_pow hm]
  congr 1
  push_cast
  ring

theorem lastPlace_normal {m : ℕ} {T : ℤ} (hle : 2 ^ 52 ≤ m) (hlt : m < 2 ^ 53)
    (hT : -1074 ≤ T) : lastPlace m T = T := by
  rw [lastPlace_eq, log2_normal hle hlt]
  omega

/-- A number that has 53 digits at its last place is not rounded. -/
theorem roundWithAccuracy_exact (s : Sign) {m : ℕ} {T : ℤ} (hle : 2 ^ 52 ≤ m) (hlt : m < 2 ^ 53)
    (hT : -1074 ≤ T) (k : ℕ) :
    roundWithAccuracy Format.binary64 s (m * 2 ^ k) (T - k) .exact =
      .finite s m T (by omega) := by
  have hlast : lastPlace (m * 2 ^ k) (T - k) = T := by
    rw [lastPlace_mul_two_pow (by omega), sub_add_cancel, lastPlace_normal hle hlt hT]
  have hrounded : roundedAt (m * 2 ^ k) (T - k) = m := by
    unfold roundedAt
    rw [hlast, show (T - (T - k)).toNat = k by omega, shiftRight_exact]
    rfl
  rw [roundWithAccuracy_eq s (by omega), hlast, hrounded]
  unfold carried
  rw [dif_neg (by omega), if_neg (by omega)]

/-- **A number that 53 digits suffice for is not rounded,** in whatever way it is told. -/
theorem round_exact (s : Sign) {m : ℕ} {T : ℤ} (hle : 2 ^ 52 ≤ m) (hlt : m < 2 ^ 53)
    (hT : -1074 ≤ T) {M : ℕ} {E : ℤ} (h : (M : ℚ) * 2 ^ E = m * 2 ^ T) :
    round Format.binary64 s M E = .finite s m T (by omega) := by
  have hround : round Format.binary64 s M E = roundWithAccuracy Format.binary64 s
      (M <<< (E - lastPlace M E).toNat) (E - ((E - lastPlace M E).toNat : ℤ)) .exact := rfl
  rw [hround]
  rcases le_total E T with hET | hTE
  · -- Digits are dropped, and all of them are zero.
    obtain ⟨k, rfl⟩ : ∃ k : ℕ, E = T - k := ⟨(T - E).toNat, by omega⟩
    have hM : M = m * 2 ^ k := by
      rw [zpow_sub₀ two_ne_zero, zpow_natCast] at h
      have hpow : (2 : ℚ) ^ T ≠ 0 := by positivity
      have hpow' : (2 : ℚ) ^ k ≠ 0 := by positivity
      field_simp at h
      rw [mul_comm]
      exact_mod_cast h
    have hlast : lastPlace M (T - k) = T := by
      rw [hM, lastPlace_mul_two_pow (by omega), sub_add_cancel, lastPlace_normal hle hlt hT]
    rw [hlast, show (T - k - T).toNat = 0 by omega, Nat.shiftLeft_zero, Nat.cast_zero, sub_zero, hM]
    exact roundWithAccuracy_exact s hle hlt hT k
  · -- Zeros are put behind the mantissa.
    obtain ⟨k, rfl⟩ : ∃ k : ℕ, E = T + k := ⟨(E - T).toNat, by omega⟩
    have hm : m = M * 2 ^ k := by
      rw [zpow_add₀ two_ne_zero, zpow_natCast] at h
      have hpow : (2 : ℚ) ^ T ≠ 0 := by positivity
      have h' : (M : ℚ) * 2 ^ k = m := by
        refine mul_right_cancel₀ hpow ?_
        rw [← h]
        ring
      exact_mod_cast h'.symm
    have hM : M ≠ 0 := by
      rintro rfl
      omega
    have hlast : lastPlace M (T + k) = T := by
      rw [← lastPlace_mul_two_pow hM, ← hm, lastPlace_normal hle hlt hT]
    have hexact := roundWithAccuracy_exact s hle hlt hT 0
    rw [pow_zero, mul_one, Nat.cast_zero, sub_zero] at hexact
    rw [hlast, show (T + k - T).toNat = k by omega, Nat.shiftLeft_eq, ← hm, add_sub_cancel_right]
    exact hexact

/-! ### Rounding error -/

theorem number?_carried (s : Sign) (r : ℕ) (T : ℤ) :
    number? (carried s r T) = some ((s.apply r : ℤ) * (2 : ℚ) ^ T) := by
  unfold carried
  split
  · rename_i hzero
    rw [hzero]
    cases s <;> simp [number?, Sign.apply]
  · split
    · rename_i hcarry
      rw [hcarry]
      have htwice : (2 : ℚ) ^ (T + 1) = 2 ^ T * 2 := zpow_add_one₀ two_ne_zero T
      show some (((s.apply (2 ^ 52 : ℕ) : ℤ) : ℚ) * (2 : ℚ) ^ (T + 1)) = _
      rw [htwice]
      cases s <;> simp only [Sign.apply] <;> push_cast <;> ring_nf
    · rfl

/-- The digits of a mantissa that are kept fill 53 places, short of the least exponent. -/
theorem le_roundedAt {M : ℕ} {E : ℤ} (hE : E ≤ lastPlace M E) (hM : M ≠ 0)
    (hlast : lastPlace M E ≠ -1074) : 2 ^ 52 ≤ roundedAt M E := by
  obtain ⟨hle, -⟩ := roundedAt_bounds M E
  have hplace : (lastPlace M E - E).toNat + 52 = M.log2 := by
    rw [lastPlace_eq] at hE hlast ⊢
    omega
  have hkept : 2 ^ 52 ≤ M / 2 ^ (lastPlace M E - E).toNat := by
    rw [Nat.le_div_iff_mul_le (Nat.two_pow_pos _), ← pow_add, add_comm, hplace]
    exact Nat.log2_self_le hM
  exact hkept.trans hle

theorem canonical_carried (s : Sign) {M : ℕ} {E : ℤ} (hE : E ≤ lastPlace M E)
    (hlast : lastPlace M E ≤ 970) : Canonical (carried s (roundedAt M E) (lastPlace M E)) := by
  have hfirst : -1074 ≤ lastPlace M E := le_max_right _ _
  have hle := roundedAt_le M E
  unfold carried
  split
  · exact .zero s
  · rename_i hpos
    split
    · exact .normal _ _ _ _ (le_refl _) (by norm_num) (by omega) (by omega)
    · by_cases hnormal : 2 ^ 52 ≤ roundedAt M E
      · exact .normal _ _ _ _ hnormal (by omega) hfirst (by omega)
      · have hleast : lastPlace M E = -1074 := by
          by_contra hleast
          refine hnormal (le_roundedAt hE ?_ hleast)
          rintro rfl
          rw [lastPlace_eq, Nat.log2_zero] at hE hleast
          omega
        simp only [hleast]
        exact .subnormal _ _ _ (by omega)

/-- **A rounded number is off by one unit of its last place at most.** -/
theorem roundWithAccuracy_near (s : Sign) {M : ℕ} {E : ℤ} (hE : E ≤ lastPlace M E)
    (hlast : lastPlace M E ≤ 970) :
    ∃ r : ℕ, Canonical (roundWithAccuracy Format.binary64 s M E .exact) ∧
      number? (roundWithAccuracy Format.binary64 s M E .exact) =
        some ((s.apply r : ℤ) * (2 : ℚ) ^ lastPlace M E) ∧
      (r : ℚ) * 2 ^ lastPlace M E ≤ M * 2 ^ E + 2 ^ lastPlace M E := by
  refine ⟨roundedAt M E, ?_, ?_, ?_⟩
  · rw [roundWithAccuracy_eq s hE]
    exact canonical_carried s hE hlast
  · rw [roundWithAccuracy_eq s hE]
    exact number?_carried s _ _
  · obtain ⟨-, hle⟩ := roundedAt_bounds M E
    have hkept : (roundedAt M E) * 2 ^ (lastPlace M E - E).toNat ≤
        M + 2 ^ (lastPlace M E - E).toNat :=
      calc roundedAt M E * 2 ^ (lastPlace M E - E).toNat
          ≤ (M / 2 ^ (lastPlace M E - E).toNat + 1) * 2 ^ (lastPlace M E - E).toNat :=
            Nat.mul_le_mul_right _ hle
        _ = M / 2 ^ (lastPlace M E - E).toNat * 2 ^ (lastPlace M E - E).toNat +
            2 ^ (lastPlace M E - E).toNat := by ring
        _ ≤ M + 2 ^ (lastPlace M E - E).toNat :=
            Nat.add_le_add_right (Nat.div_mul_le_self _ _) _
    have hkept' : (roundedAt M E : ℚ) * 2 ^ (lastPlace M E - E).toNat ≤
        M + 2 ^ (lastPlace M E - E).toNat := by exact_mod_cast hkept
    have hsplit := two_zpow_split hE
    have hpos : (0 : ℚ) ≤ 2 ^ E := by positivity
    calc (roundedAt M E : ℚ) * 2 ^ lastPlace M E
        = roundedAt M E * 2 ^ (lastPlace M E - E).toNat * 2 ^ E := by rw [hsplit, mul_assoc]
      _ ≤ (M + 2 ^ (lastPlace M E - E).toNat) * 2 ^ E := mul_le_mul_of_nonneg_right hkept' hpos
      _ = M * 2 ^ E + 2 ^ lastPlace M E := by rw [add_mul, hsplit]

end Double
end Brokerage
