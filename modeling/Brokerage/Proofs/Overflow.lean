/-
# Sums out of the range of doubles

The greatest double is 2 ^ 1024 - 2 ^ 971. What lies less than half a unit of its last
place above it is still rounded to it, and everything from there on becomes infinite, the
middle included, since the greatest mantissa is odd (`roundedAt_carried_iff`). So a sum of
finite doubles is finite if the exact sum stays within that bound, and the infinity of its
sign if not (`packs_add`).

Key definitions: `overflow`, `Packs`, `rational`.
Key theorems: `roundedAt_carried_iff`, `packs_round`, `packs_add`, `isFinite_add_iff`,
`isFinite_sub_iff`, `infinite_add`, `isFlat_of_finite_scale`, `isFlat_of_infinite_scale`.
-/
import Brokerage.Proofs.Whole

namespace Brokerage
namespace Double

open Float.Model (Format UnpackedFloat)
open Float.Model.UnpackedFloat

/-- The middle between the greatest double and the next power of two. -/
def overflow : ℚ := 2 ^ 1024 - 2 ^ 970

theorem overflow_eq : overflow = (2 ^ 54 - 1) * 2 ^ (970 : ℤ) := by
  have hsplit : (2 : ℚ) ^ 1024 = 2 ^ 54 * 2 ^ 970 := (pow_add 2 54 970)
  unfold overflow
  rw [zpow_ofNat, hsplit, sub_mul, one_mul]

theorem overflow_pos : 0 < overflow := by
  rw [overflow_eq]
  positivity

/-- A mantissa of 53 digits short of the last exponent is in range. -/
theorem le_overflow {T : ℤ} (hT : T ≤ 970) : (2 : ℚ) ^ 53 * 2 ^ T ≤ overflow := by
  have hpow : (2 : ℚ) ^ T ≤ 2 ^ (970 : ℤ) := zpow_le_zpow_right₀ one_le_two hT
  rw [overflow_eq]
  exact mul_le_mul (by norm_num) hpow (by positivity) (by norm_num)

/-- A mantissa of 53 digits beyond the last exponent is not. -/
theorem overflow_le {T : ℤ} (hT : 972 ≤ T) : overflow ≤ (2 : ℚ) ^ 52 * 2 ^ T := by
  have hpow : (2 : ℚ) ^ (972 : ℤ) ≤ 2 ^ T := zpow_le_zpow_right₀ one_le_two hT
  calc overflow = (2 ^ 54 - 1) * 2 ^ (970 : ℤ) := overflow_eq
    _ ≤ 2 ^ 54 * 2 ^ (970 : ℤ) :=
      mul_le_mul_of_nonneg_right (sub_le_self _ zero_le_one) (by positivity)
    _ = 2 ^ 52 * 2 ^ (972 : ℤ) := by
      rw [← zpow_natCast, ← zpow_natCast, ← zpow_add₀ two_ne_zero, ← zpow_add₀ two_ne_zero]
      rfl
    _ ≤ 2 ^ 52 * 2 ^ T := mul_le_mul_of_nonneg_left hpow (by positivity)

/-! ### Rounding up to a digit more -/

/-- The last of the digits that are dropped. -/
theorem roundBit_shiftRight (x : ExtendedMantissa) (k : ℕ) :
    (x >>> (k + 1)).roundBit = (x.mantissa / 2 ^ k % 2 != 0) := by
  show ((x >>> k).mantissa % 2 != 0) = _
  rw [mantissa_shiftRight]

/-- An odd mantissa goes to the next from the middle on. -/
theorem roundedMantissa_odd {x : ExtendedMantissa} (hodd : x.mantissa % 2 = 1) :
    x.roundedMantissa = if x.roundBit then x.mantissa + 1 else x.mantissa := by
  rcases x with ⟨m, _ | _, _ | _⟩
  · rfl
  · rfl
  · show m + m % 2 = m + 1
    rw [hodd]
  · rfl

/-- **A rounded mantissa gets a digit more** if and only if it reaches the middle between
the last mantissa of 53 digits and the first of 54. -/
theorem roundedAt_carried_iff {M : ℕ} {E : ℤ} : roundedAt M E = 2 ^ 53 ↔
    (2 ^ 54 - 1) * 2 ^ (lastPlace M E - E).toNat ≤ 2 * M := by
  have hlt : M < 2 ^ 53 * 2 ^ (lastPlace M E - E).toNat := lt_two_pow
  obtain ⟨hfloor, hceil⟩ := roundedAt_bounds M E
  unfold roundedAt at hfloor hceil ⊢
  cases hk : (lastPlace M E - E).toNat with
  | zero =>
    rw [hk, pow_zero, mul_one] at hlt
    have hsame : (ExtendedMantissa.ofMantissaAndAccuracy M .exact >>> 0).roundedMantissa = M := rfl
    rw [hsame, pow_zero]
    omega
  | succ j =>
    rw [hk] at hlt hfloor hceil
    have hhalf : M / 2 ^ (j + 1) = M / 2 ^ j / 2 := by
      rw [Nat.div_div_eq_div_mul, pow_succ]
    have hbelow : M / 2 ^ j < 2 ^ 54 :=
      Nat.div_lt_of_lt_mul (by rw [pow_succ 2 j] at hlt; omega)
    have hmiddle : (2 ^ 54 - 1) * 2 ^ (j + 1) ≤ 2 * M ↔ 2 ^ 54 - 1 ≤ M / 2 ^ j := by
      rw [Nat.le_div_iff_mul_le (Nat.two_pow_pos j), pow_succ 2 j]
      omega
    have hbit := roundBit_shiftRight (.ofMantissaAndAccuracy M .exact) j
    have hmantissa := mantissa_shiftRight (.ofMantissaAndAccuracy M .exact) (j + 1)
    replace hbit : _ = (M / 2 ^ j % 2 != 0) := hbit
    replace hmantissa : _ = M / 2 ^ (j + 1) := hmantissa
    rw [hmiddle]
    by_cases htop : M / 2 ^ (j + 1) = 2 ^ 53 - 1
    · rw [roundedMantissa_odd (by rw [hmantissa]; omega), hmantissa, hbit, htop]
      cases hlast : M / 2 ^ j % 2 != 0 with
      | false =>
        have hzero : M / 2 ^ j % 2 = 0 := by simpa using hlast
        simp only [Bool.false_eq_true, if_false]
        omega
      | true =>
        have hone : M / 2 ^ j % 2 ≠ 0 := by simpa using hlast
        simp only [if_true]
        omega
    · omega

/-! ### What becomes of an exact result -/

/-- Packed and read again, a result that stands for the exact `q` is a finite double if `q`
is in range and the infinity of its sign if not. -/
structure Packs (u : UnpackedFloat) (q : ℚ) : Prop where
  within : |q| < overflow → Canonical u ∧ ∃ a, number? u = some a
  above : overflow ≤ q → unpack Format.binary64 (pack Format.binary64 u) = .infinity .positive
  below : q ≤ -overflow → unpack Format.binary64 (pack Format.binary64 u) = .infinity .negative

/-- An exponent beyond the last stands for infinity. -/
theorem unpack_pack_infinite (s : Sign) {m : ℕ} {e : ℤ} (hpos : 0 < m) (he : 972 ≤ e) :
    unpack Format.binary64 (pack Format.binary64 (.finite s m e hpos)) = .infinity s := by
  have hbias := biased e
  have hpack : pack Format.binary64 (.finite s m e hpos) = packedInfinity Format.binary64 s := by
    unfold pack
    simp only [hbias]
    refine if_pos ?_
    show 2 ^ 11 ≤ (e + 1075).toNat + 1
    omega
  have hinfinity : pack Format.binary64 (.infinity s) = packedInfinity Format.binary64 s := rfl
  rw [hpack, ← hinfinity]
  exact unpack_pack (Canonical.infinity s)

/-- The last place of a number tells how large it is. -/
theorem scaled_lastPlace {M : ℕ} {E : ℤ} (hE : E ≤ lastPlace M E) :
    (M : ℚ) * 2 ^ E < 2 ^ 53 * 2 ^ lastPlace M E ∧
      (M ≠ 0 → lastPlace M E ≠ -1074 → 2 ^ 52 * 2 ^ lastPlace M E ≤ (M : ℚ) * 2 ^ E) := by
  have hpos : (0 : ℚ) < 2 ^ E := by positivity
  rw [two_zpow_split hE, ← mul_assoc, ← mul_assoc]
  constructor
  · have hlt : (M : ℚ) < 2 ^ 53 * 2 ^ (lastPlace M E - E).toNat := by exact_mod_cast lt_two_pow
    exact mul_lt_mul_of_pos_right hlt hpos
  · intro hM hlast
    have hplace : 52 + (lastPlace M E - E).toNat = M.log2 := by
      rw [lastPlace_eq] at hE hlast ⊢
      omega
    have hle : 2 ^ 52 * 2 ^ (lastPlace M E - E).toNat ≤ M := by
      rw [← pow_add, hplace]
      exact Nat.log2_self_le hM
    have hle' : (2 : ℚ) ^ 52 * 2 ^ (lastPlace M E - E).toNat ≤ M := by exact_mod_cast hle
    exact mul_le_mul_of_nonneg_right hle' hpos.le

/-- A mantissa that is too large for the last exponent becomes infinite. -/
theorem unpack_pack_carried (s : Sign) {r : ℕ} {T : ℤ} (hr : r ≠ 0)
    (h : 972 ≤ T ∨ (T = 971 ∧ r = 2 ^ 53)) :
    unpack Format.binary64 (pack Format.binary64 (carried s r T)) = .infinity s := by
  unfold carried
  rw [dif_neg hr]
  split
  · exact unpack_pack_infinite s _ (by omega)
  · exact unpack_pack_infinite s _ (by omega)

/-- **What is rounded at its last place** is finite below the bound and infinite from there
on. -/
theorem roundWithAccuracy_fate (s : Sign) {M : ℕ} {E : ℤ} (hM : M ≠ 0)
    (hE : E ≤ lastPlace M E) :
    ((M : ℚ) * 2 ^ E < overflow ∧
      Canonical (roundWithAccuracy Format.binary64 s M E .exact) ∧
        ∃ a, number? (roundWithAccuracy Format.binary64 s M E .exact) = some a) ∨
    (overflow ≤ (M : ℚ) * 2 ^ E ∧
      unpack Format.binary64 (pack Format.binary64
        (roundWithAccuracy Format.binary64 s M E .exact)) = .infinity s) := by
  obtain ⟨hbelow, habove⟩ := scaled_lastPlace hE
  rcases lt_trichotomy (lastPlace M E) 971 with hlast | hlast | hlast
  · obtain ⟨r, hcanonical, hnumber, -⟩ := roundWithAccuracy_near s hE (by omega)
    exact .inl ⟨hbelow.trans_le (le_overflow (by omega)), hcanonical, _, hnumber⟩
  · -- At the last exponent it depends on whether the mantissa is rounded to a digit more.
    have hkept : 2 ^ 52 ≤ roundedAt M E := le_roundedAt hE hM (by omega)
    have hsplit : (2 : ℚ) * 2 ^ (970 : ℤ) = 2 ^ (lastPlace M E - E).toNat * 2 ^ E := by
      rw [← two_zpow_split hE, hlast, ← zpow_one_add₀ two_ne_zero]
      rfl
    have hreach : overflow ≤ (M : ℚ) * 2 ^ E ↔ roundedAt M E = 2 ^ 53 := by
      have hpos : (0 : ℚ) < 2 ^ E := by positivity
      rw [roundedAt_carried_iff, overflow_eq, ← mul_le_mul_iff_right₀ (zero_lt_two' ℚ),
        mul_left_comm, hsplit, ← mul_assoc, ← mul_assoc, mul_le_mul_iff_left₀ hpos,
        ← Nat.cast_le (α := ℚ)]
      push_cast
      norm_num
    rw [roundWithAccuracy_eq s hE]
    by_cases hcarry : roundedAt M E = 2 ^ 53
    · exact .inr ⟨hreach.mpr hcarry, unpack_pack_carried s (by omega) (.inr ⟨hlast, hcarry⟩)⟩
    · have hle := roundedAt_le M E
      refine .inl ⟨not_le.mp (mt hreach.mp hcarry), ?_, _, number?_carried s _ _⟩
      unfold carried
      rw [dif_neg (by omega), if_neg hcarry]
      exact .normal _ _ _ _ hkept (by omega) (by omega) (by omega)
  · have hkept : 2 ^ 52 ≤ roundedAt M E := le_roundedAt hE hM (by omega)
    rw [roundWithAccuracy_eq s hE]
    exact .inr ⟨(overflow_le (by omega)).trans (habove hM (by omega)),
      unpack_pack_carried s (by omega) (.inl (by omega))⟩

/-- A mantissa and an exponent, in whatever way they are told. -/
theorem packs_round (s : Sign) {M : ℕ} {E : ℤ} (hM : M ≠ 0) :
    Packs (round Format.binary64 s M E) ((s.apply M : ℤ) * 2 ^ E) := by
  have hround : round Format.binary64 s M E = roundWithAccuracy Format.binary64 s
      (M <<< (E - lastPlace M E).toNat) (E - ((E - lastPlace M E).toNat : ℤ)) .exact := rfl
  obtain ⟨k, hk⟩ : ∃ k : ℕ, k = (E - lastPlace M E).toNat := ⟨_, rfl⟩
  have hM' : M * 2 ^ k ≠ 0 := Nat.mul_ne_zero hM (Nat.two_pow_pos k).ne'
  have hlast : lastPlace (M * 2 ^ k) (E - k) = lastPlace M E := by
    rw [lastPlace_mul_two_pow hM, sub_add_cancel]
  have hvalue : ((M * 2 ^ k : ℕ) : ℚ) * 2 ^ (E - k) = M * 2 ^ E := by
    rw [zpow_sub₀ two_ne_zero, zpow_natCast]
    push_cast
    field_simp
  have hfate := roundWithAccuracy_fate s (E := E - k) hM' (by rw [hlast]; omega)
  rw [hvalue] at hfate
  rw [hround, ← hk, Nat.shiftLeft_eq]
  have hpos : (0 : ℚ) < M * 2 ^ E := by
    have hM'' : (0 : ℚ) < M := by exact_mod_cast Nat.pos_of_ne_zero hM
    positivity
  have hbound := overflow_pos
  cases s with
  | positive =>
    have happly : ((Sign.positive.apply (M : ℤ) : ℤ) : ℚ) * 2 ^ E = M * 2 ^ E := rfl
    rw [happly]
    rcases hfate with ⟨hlt, hfinite⟩ | ⟨hle, hinfinite⟩
    · exact ⟨fun _ => hfinite, fun h => absurd h (not_le.mpr hlt), fun h => by linarith⟩
    · exact ⟨fun h => absurd hle (not_le.mpr (abs_lt.mp h).2), fun _ => hinfinite,
        fun h => by linarith⟩
  | negative =>
    have happly : ((Sign.negative.apply (M : ℤ) : ℤ) : ℚ) * 2 ^ E = -(M * 2 ^ E) := by
      show ((-(M : ℤ) : ℤ) : ℚ) * 2 ^ E = _
      rw [Int.cast_neg, neg_mul]
      rfl
    rw [happly]
    rcases hfate with ⟨hlt, hfinite⟩ | ⟨hle, hinfinite⟩
    · exact ⟨fun _ => hfinite, fun h => by linarith, fun h => by linarith⟩
    · refine ⟨fun h => ?_, fun h => by linarith, fun _ => hinfinite⟩
      rw [abs_neg, abs_of_pos hpos] at h
      exact absurd hle (not_le.mpr h)

/-- Finite doubles are in range. -/
theorem number_lt_overflow {u : UnpackedFloat} (hu : Canonical u) {a : ℚ}
    (ha : number? u = some a) : |a| < overflow := by
  have hscaled : ∀ (s : Sign) {m : ℕ} {e : ℤ} (hm : 0 < m), (m : ℚ) * 2 ^ e < overflow →
      number? (.finite s m e hm) = some a → |a| < overflow := by
    intro s m e hm hlt hnumber
    obtain ⟨r, hr, hreq, hsigned⟩ := number?_finite (e := e) s hm
    rw [hsigned] at hnumber
    cases hnumber
    cases s with
    | positive => rwa [abs_of_pos hr, hreq]
    | negative => rwa [abs_neg, abs_of_pos hr, hreq]
  cases hu with
  | notANumber => cases ha
  | infinity s => cases ha
  | zero s =>
    cases ha
    rw [abs_zero]
    exact overflow_pos
  | subnormal s m hpos hlt =>
    refine hscaled s hpos (lt_of_lt_of_le ?_ (le_overflow (T := -1074) (by norm_num))) ha
    have hm : (m : ℚ) < 2 ^ 53 := by exact_mod_cast hlt.trans (by norm_num)
    exact mul_lt_mul_of_pos_right hm (by positivity)
  | normal s m e hpos hle hlt hfirst hlast =>
    refine hscaled s hpos ?_ ha
    -- At the last exponent the greatest mantissa stays below the middle.
    rcases hlast.lt_or_eq with hshort | rfl
    · have hm : (m : ℚ) < 2 ^ 53 := by exact_mod_cast hlt
      exact (mul_lt_mul_of_pos_right hm (by positivity)).trans_le (le_overflow (by omega))
    · have hm : 2 * (m : ℚ) < 2 ^ 54 - 1 := by
        have hm' : ((2 * m + 1 : ℕ) : ℚ) < (2 ^ 54 : ℕ) := Nat.cast_lt.mpr (by omega)
        push_cast at hm'
        linarith
      calc (m : ℚ) * 2 ^ (971 : ℤ) = 2 * m * 2 ^ (970 : ℤ) := by
            rw [show (971 : ℤ) = 970 + 1 from rfl, zpow_add_one₀ two_ne_zero]
            ring
        _ < (2 ^ 54 - 1) * 2 ^ (970 : ℤ) := mul_lt_mul_of_pos_right hm (by positivity)
        _ = overflow := overflow_eq.symm

theorem packs_of_number {u : UnpackedFloat} (hu : Canonical u) {a : ℚ}
    (ha : number? u = some a) : Packs u a := by
  have hlt := abs_lt.mp (number_lt_overflow hu ha)
  exact ⟨fun _ => ⟨hu, a, ha⟩, fun h => absurd h (not_le.mpr hlt.2),
    fun h => absurd h (not_le.mpr hlt.1)⟩

theorem packs_normalize (M E : ℤ) :
    Packs (UnpackedFloat.normalize Format.binary64 M E .positive) (M * 2 ^ E) := by
  unfold UnpackedFloat.normalize
  rcases lt_trichotomy M 0 with hM | rfl | hM
  · have hround := packs_round .negative (M := (-M).toNat) (E := E) (by omega)
    have hvalue : Sign.negative.apply ((-M).toNat : ℤ) = M := by
      show -((-M).toNat : ℤ) = M
      omega
    rw [hvalue] at hround
    rw [compare_lt_iff_lt.mpr hM]
    exact hround
  · rw [Int.cast_zero, zero_mul]
    exact packs_of_number (.zero .positive) rfl
  · have hround := packs_round .positive (M := M.toNat) (E := E) (by omega)
    have hvalue : Sign.positive.apply (M.toNat : ℤ) = M := by
      show (M.toNat : ℤ) = M
      omega
    rw [hvalue] at hround
    rw [compare_gt_iff_gt.mpr hM]
    exact hround

/-- **A sum is finite if the exact sum is in range,** and infinite if not. -/
theorem packs_add {u v : UnpackedFloat} (hu : Canonical u) (hv : Canonical v) {a b : ℚ}
    (ha : number? u = some a) (hb : number? v = some b) :
    Packs (add Format.binary64 u v) (a + b) := by
  rcases u with _ | _ | s | ⟨s, m, e, hm⟩
  · cases ha
  · cases ha
  · rcases v with _ | _ | t | ⟨t, k, f, hk⟩
    · cases hb
    · cases hb
    · cases ha
      cases hb
      have hsum : add Format.binary64 (.zero s) (.zero t) =
          if s == t then .zero s else .zero .positive := rfl
      rw [hsum, add_zero]
      split <;> exact packs_of_number (.zero _) rfl
    · cases ha
      rw [zero_add]
      exact packs_of_number hv hb
  · rcases v with _ | _ | t | ⟨t, k, f, hk⟩
    · cases hb
    · cases hb
    · cases hb
      rw [add_zero]
      exact packs_of_number hu ha
    · cases ha
      cases hb
      rw [← aligned s m (min_le_left e f), ← aligned t k (min_le_right e f), ← add_mul,
        ← Int.cast_add]
      exact packs_normalize _ _

/-! ### Doubles -/

/-- The number that a double stands for, zero if it is not finite. -/
def rational (x : Float) : ℚ :=
  (number? x.toModel.unpack).getD 0

variable {x y : Float} {s : Sign}

theorem number?_rational (hx : x.isFinite = true) :
    number? x.toModel.unpack = some (rational x) := by
  obtain ⟨a, ha⟩ := (isFinite_iff x).mp hx
  unfold rational
  rw [ha]
  rfl

theorem rational_eq {a : ℚ} (h : number? x.toModel.unpack = some a) : rational x = a := by
  unfold rational
  rw [h]
  rfl

/-- The double is infinite. -/
def IsInfinite (x : Float) (s : Sign) : Prop :=
  x.toModel.unpack = .infinity s

theorem IsInfinite.not_isFinite (h : IsInfinite x s) : x.isFinite = false := by
  show x.toModel.unpack.isFinite = false
  rw [h]
  rfl

/-- A double is a number if it is finite or infinite. -/
theorem isNaN_eq_false_iff :
    x.isNaN = false ↔ x.isFinite = true ∨ ∃ s, IsInfinite x s := by
  unfold IsInfinite
  show x.toModel.unpack.isNaN = false ↔ x.toModel.unpack.isFinite = true ∨ _
  cases x.toModel.unpack <;> simp [UnpackedFloat.isNaN, UnpackedFloat.isFinite]

theorem rational_neg (hx : x.isFinite = true) :
    (-x).isFinite = true ∧ rational (-x) = -rational x := by
  obtain ⟨hcanonical, hnumber⟩ := neg_number (canonical x) (number?_rational hx)
  refine ⟨isFinite_pack hcanonical hnumber, rational_eq ?_⟩
  show number? (Float.Model.pack x.toModel.unpack.neg).unpack = _
  rw [show (Float.Model.pack x.toModel.unpack.neg).unpack = _ from unpack_pack hcanonical, hnumber]

/-- What a sum of finite doubles comes to. -/
theorem add_fate (hx : x.isFinite = true) (hy : y.isFinite = true) :
    (|rational x + rational y| < overflow ∧ (x + y).isFinite = true) ∨
      (overflow ≤ rational x + rational y ∧ IsInfinite (x + y) .positive) ∨
      (rational x + rational y ≤ -overflow ∧ IsInfinite (x + y) .negative) := by
  have hpacks := packs_add (canonical x) (canonical y) (number?_rational hx) (number?_rational hy)
  rcases lt_or_ge |rational x + rational y| overflow with h | h
  · obtain ⟨hcanonical, a, hnumber⟩ := hpacks.within h
    exact .inl ⟨h, isFinite_pack hcanonical hnumber⟩
  · rcases le_abs'.mp h with h | h
    · exact .inr (.inr ⟨h, hpacks.below h⟩)
    · exact .inr (.inl ⟨h, hpacks.above h⟩)

/-- **A sum of finite doubles is finite** if and only if the exact sum is in range. -/
theorem isFinite_add_iff (hx : x.isFinite = true) (hy : y.isFinite = true) :
    (x + y).isFinite = true ↔ |rational x + rational y| < overflow := by
  rcases add_fate hx hy with ⟨h, hfinite⟩ | ⟨h, hinfinite⟩ | ⟨h, hinfinite⟩
  · exact iff_of_true hfinite h
  · exact iff_of_false (by simp [hinfinite.not_isFinite]) (not_lt.mpr (h.trans (le_abs_self _)))
  · exact iff_of_false (by simp [hinfinite.not_isFinite])
      (not_lt.mpr ((le_neg.mpr h).trans (neg_le_abs _)))

theorem rational_bounds (hx : x.isFinite = true) : |rational x| < overflow :=
  number_lt_overflow (canonical x) (number?_rational hx)

/-! ### Opposites and differences -/

theorem canonical_neg {u : UnpackedFloat} (hu : Canonical u) : Canonical u.neg := by
  cases hu with
  | notANumber => exact .notANumber
  | infinity s => exact .infinity _
  | zero s => exact .zero _
  | subnormal s m hpos hlt => exact .subnormal _ _ _ hlt
  | normal s m e hpos hle hlt hfirst hlast => exact .normal _ _ _ _ hle hlt hfirst hlast

theorem unpack_neg (x : Float) : (-x).toModel.unpack = x.toModel.unpack.neg :=
  unpack_pack (canonical_neg (canonical x))

theorem sub_eq_add_opposite (x y : Float) : x - y = x + -y := by
  have hsub : x - y = .ofModel
    (.pack (sub Format.binary64 x.toModel.unpack y.toModel.unpack)) := rfl
  have hadd : x + -y = .ofModel
    (.pack (add Format.binary64 x.toModel.unpack (-y).toModel.unpack)) := rfl
  rw [hsub, hadd, unpack_neg, sub_eq]

/-- **A difference of finite doubles is finite** if and only if the exact difference is in
range. -/
theorem isFinite_sub_iff (hx : x.isFinite = true) (hy : y.isFinite = true) :
    (x - y).isFinite = true ↔ |rational x - rational y| < overflow := by
  obtain ⟨hneg, hopposite⟩ := rational_neg hy
  rw [sub_eq_add_opposite, isFinite_add_iff hx hneg, hopposite, sub_eq_add_neg]

/-! ### Beside zero -/

theorem rational_nonneg (hx : x.isFinite = true) (h : 0 ≤ x) : 0 ≤ rational x := by
  have hle := (le_number (whole?_eq_some.mp whole?_zero) (number?_rational hx)).mp h
  rwa [Int.cast_zero] at hle

/-- What is taken off an amount that is not negative leaves the range on neither side. -/
theorem isFinite_sub_of_nonneg (hx : x.isFinite = true) (hy : y.isFinite = true) (hx0 : 0 ≤ x)
    (hy0 : 0 ≤ y) : (x - y).isFinite = true := by
  have hxlt := abs_lt.mp (rational_bounds hx)
  have hylt := abs_lt.mp (rational_bounds hy)
  have hxpos := rational_nonneg hx hx0
  have hypos := rational_nonneg hy hy0
  exact (isFinite_sub_iff hx hy).mpr (abs_lt.mpr ⟨by linarith, by linarith⟩)

/-! ### Infinite doubles -/

/-- A finite amount does not change what is infinite. -/
theorem infinite_add (h : IsInfinite x s) (hy : y.isFinite = true) : IsInfinite (x + y) s := by
  have hsum : add Format.binary64 x.toModel.unpack y.toModel.unpack = .infinity s := by
    obtain ⟨a, ha⟩ := (isFinite_iff y).mp hy
    rw [show x.toModel.unpack = .infinity s from h]
    rcases hu : y.toModel.unpack with _ | _ | t | ⟨t, k, f, hk⟩
    · rw [hu] at ha
      cases ha
    · rw [hu] at ha
      cases ha
    · rfl
    · rfl
  show (Float.Model.pack (add Format.binary64 x.toModel.unpack y.toModel.unpack)).unpack = _
  rw [hsum]
  exact unpack_pack (Canonical.infinity s)

/-- A number remains one when a finite amount is added. -/
theorem isNaN_add (hx : x.isNaN = false) (hy : y.isFinite = true) : (x + y).isNaN = false := by
  refine isNaN_eq_false_iff.mpr ?_
  rcases isNaN_eq_false_iff.mp hx with hfinite | ⟨s, hinfinite⟩
  · rcases add_fate hfinite hy with ⟨-, h⟩ | ⟨-, h⟩ | ⟨-, h⟩
    · exact .inl h
    · exact .inr ⟨_, h⟩
    · exact .inr ⟨_, h⟩
  · exact .inr ⟨s, infinite_add hinfinite hy⟩

/-- No finite double is as large as the infinite one. -/
theorem IsInfinite.not_le (h : IsInfinite x .positive) (hy : y.isFinite = true) : ¬ x ≤ y := by
  obtain ⟨a, ha⟩ := (isFinite_iff y).mp hy
  rw [le_iff_compare, show x.toModel.unpack = .infinity .positive from h]
  rcases hu : y.toModel.unpack with _ | _ | t | ⟨t, k, f, hk⟩
  · rw [hu] at ha
    cases ha
  · rw [hu] at ha
    cases ha
  · simp [UnpackedFloat.compare]
  · simp [UnpackedFloat.compare]

/-- The infinite double is as large as any number. -/
theorem IsInfinite.le (h : IsInfinite x .positive) (hy : y.isNaN = false) : y ≤ x := by
  have hnumber : y.toModel.unpack.isNaN = false := hy
  rw [le_iff_compare, show x.toModel.unpack = .infinity .positive from h]
  rcases hu : y.toModel.unpack with t | _ | t | ⟨t, k, f, hk⟩
  · cases t <;> decide
  · rw [hu] at hnumber
    cases hnumber
  · simp [UnpackedFloat.compare]
  · cases t <;> simp [UnpackedFloat.compare]

theorem zero_unpack : (0 : Float).toModel.unpack = .zero .positive := rfl

/-- The infinity below zero. -/
theorem IsInfinite.lt_zero (h : IsInfinite x .negative) : x < 0 := by
  rw [lt_iff_compare, show x.toModel.unpack = .infinity .negative from h, zero_unpack]
  rfl

theorem isNaN_of_zero_le (h : 0 ≤ x) : x.isNaN = false := by
  rw [le_iff_compare, zero_unpack] at h
  show x.toModel.unpack.isNaN = false
  rcases hu : x.toModel.unpack with _ | _ | t | ⟨t, k, f, hk⟩
  · rfl
  · rw [hu] at h
    rcases h with h | h <;> cases h
  · rfl
  · rfl

/-- A number that is not below zero is above it or zero. -/
theorem zero_le_of_not_lt (hx : x.isNaN = false) (h : ¬ x < 0) : 0 ≤ x := by
  rcases isNaN_eq_false_iff.mp hx with hfinite | ⟨t, hinfinite⟩
  · exact (not_lt_zero_iff hfinite).mp h
  · cases t with
    | positive => exact hinfinite.le rfl
    | negative => exact absurd hinfinite.lt_zero h

theorem zero_le_of_not_le (hx : x.isNaN = false) (h : ¬ x ≤ 0) : 0 ≤ x := by
  refine zero_le_of_not_lt hx fun hlt => h ?_
  rw [lt_iff_compare] at hlt
  exact le_iff_compare.mpr (.inl hlt)

/-! ### Flat quantities -/

theorem isFinite_magnitude (hx : x.isFinite = true) : (magnitude x).isFinite = true := by
  unfold magnitude
  split
  · exact (rational_neg hx).1
  · exact hx

theorem isFinite_larger (hx : x.isFinite = true) (hy : y.isFinite = true) :
    (larger x y).isFinite = true := by
  unfold larger
  split
  · exact hy
  · split
    · exact hx
    · split
      · exact hx
      · exact hy

theorem infinite_magnitude (h : IsInfinite x s) : IsInfinite (magnitude x) .positive := by
  have hneg : x < 0 ↔ s = .negative := by
    rw [lt_iff_compare, show x.toModel.unpack = .infinity s from h, zero_unpack]
    cases s <;> simp [UnpackedFloat.compare]
  unfold magnitude
  split
  · rename_i hlt
    show (-x).toModel.unpack = _
    rw [unpack_neg, show x.toModel.unpack = .infinity s from h, hneg.mp hlt]
    rfl
  · rename_i hlt
    cases s with
    | positive => exact h
    | negative => exact absurd (hneg.mpr rfl) hlt

/-- The tolerance beside a finite quantity is finite. -/
theorem isFinite_tolerance_mul (hx : x.isFinite = true) :
    (Amount.tolerance * x).isFinite = true := by
  obtain ⟨a, ha⟩ := (isFinite_iff x).mp hx
  have hmul : ∃ b, Canonical (mul Format.binary64 (Amount.tolerance : Float).toModel.unpack
      x.toModel.unpack) ∧ number? (mul Format.binary64 (Amount.tolerance : Float).toModel.unpack
        x.toModel.unpack) = some b := by
    have hcanonical := canonical x
    rw [tolerance_unpack]
    rcases hu : x.toModel.unpack with _ | _ | t | ⟨t, k, f, hk⟩
    · rw [hu] at ha
      cases ha
    · rw [hu] at ha
      cases ha
    · exact ⟨0, .zero _, rfl⟩
    · rw [hu] at hcanonical
      have hbounds : k < 2 ^ 53 ∧ f ≤ 971 := by
        cases hcanonical with
        | subnormal => constructor <;> omega
        | normal => constructor <;> omega
      obtain ⟨hlogLow, hlogHigh⟩ := log2_tolerance (a := 0) hk hbounds.1
      have hplace := lastPlace_eq (toleranceDigits * k) (-82 + f)
      obtain ⟨r, hround, hnumber, -⟩ := roundWithAccuracy_near (.positive * t)
        (M := toleranceDigits * k) (E := -82 + f) (by omega) (by omega)
      exact ⟨_, hround, hnumber⟩
  obtain ⟨b, hcanonical, hnumber⟩ := hmul
  exact isFinite_pack hcanonical hnumber

/-- **An infinite rest of finite quantities is not flat.** -/
theorem isFlat_of_finite_scale (h : IsInfinite x s) (hy : y.isFinite = true) :
    isFlat x y = false := by
  have hone : (1 : Float).isFinite = true := rfl
  unfold isFlat
  exact decide_eq_false ((infinite_magnitude h).not_le
    (isFinite_tolerance_mul (isFinite_larger (isFinite_magnitude hy) hone)))

theorem isNaN_neg (hx : x.isNaN = false) : (-x).isNaN = false := by
  rcases isNaN_eq_false_iff.mp hx with hfinite | ⟨t, hinfinite⟩
  · exact isNaN_eq_false_iff.mpr (.inl (rational_neg hfinite).1)
  · refine isNaN_eq_false_iff.mpr (.inr ⟨-t, ?_⟩)
    show (-x).toModel.unpack = _
    rw [unpack_neg, show x.toModel.unpack = .infinity t from hinfinite]
    rfl

theorem isNaN_magnitude (hx : x.isNaN = false) : (magnitude x).isNaN = false := by
  unfold magnitude
  split
  · exact isNaN_neg hx
  · exact hx

/-- The larger of an infinite amount and a finite one. -/
theorem larger_infinite (h : IsInfinite x .positive) (hy : y.isFinite = true) : larger x y = x := by
  unfold larger
  rw [if_neg (h.not_le hy), if_pos (h.le (isNaN_eq_false_iff.mpr (.inl hy)))]

/-- **Beside an infinite quantity every number is flat.** -/
theorem isFlat_of_infinite_scale {t : Sign} (hx : x.isNaN = false) (h : IsInfinite y t) :
    isFlat x y = true := by
  have hmagnitude := infinite_magnitude h
  have hproduct : IsInfinite (Amount.tolerance * magnitude y) .positive := by
    have hmul : mul Format.binary64 (Amount.tolerance : Float).toModel.unpack
        (magnitude y).toModel.unpack = .infinity .positive := by
      rw [tolerance_unpack, show (magnitude y).toModel.unpack = .infinity .positive from hmagnitude]
      rfl
    show (Float.Model.pack (mul Format.binary64 (Amount.tolerance : Float).toModel.unpack
      (magnitude y).toModel.unpack)).unpack = _
    rw [hmul]
    exact unpack_pack (Canonical.infinity .positive)
  unfold isFlat
  rw [larger_infinite hmagnitude rfl]
  exact decide_eq_true (hproduct.le (isNaN_magnitude hx))

end Double
end Brokerage
