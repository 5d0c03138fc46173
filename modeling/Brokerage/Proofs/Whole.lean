/-
# Whole numbers in doubles

A whole number below 2 ^ 53 has 53 binary digits or fewer, so a double holds it as it is,
and sums and differences that stay below 2 ^ 53 are not rounded (`whole?_add`,
`whole?_sub`). A product with the tolerance is rounded; beside a whole quantity below
10 ^ 9 it stays below one (`tolerance_mul`), so that no whole quantity but zero counts as
flat (`isFlat_whole`).

A finite double compares with zero in one of the usual three ways, and a whole number that
fits a word is a finite double even where it has to be rounded (`isFinite_ofScientific`).

Key definitions: `whole?`, `whole`.
Key theorems: `whole?_add`, `whole?_sub`, `lt_whole`, `le_whole`, `tolerance_mul`,
`isFlat_whole`, `not_lt_zero_iff`, `not_le_zero_iff`, `isFinite_ofScientific`.
-/
import Brokerage.Amount
import Brokerage.Proofs.Double

namespace Brokerage
namespace Double

open Float.Model (Format UnpackedFloat)
open Float.Model.UnpackedFloat

/-- The whole number that an amount is; none if it is not one. -/
def whole? (x : Float) : Option ℤ :=
  match number? x.toModel.unpack with
  | some q => if q.den = 1 then some q.num else none
  | none => none

/-- The whole number that an amount is, zero if it is not one. -/
def whole (x : Float) : ℤ :=
  (whole? x).getD 0

theorem whole?_eq_some {x : Float} {n : ℤ} :
    whole? x = some n ↔ number? x.toModel.unpack = some (n : ℚ) := by
  unfold whole?
  constructor
  · intro h
    split at h
    · rename_i q hq
      split at h
      · rename_i hden
        rw [hq, ← Option.some.inj h, Rat.coe_int_num_of_den_eq_one hden]
      · cases h
    · cases h
  · intro h
    rw [h]
    simp

theorem whole_eq {x : Float} {n : ℤ} (h : whole? x = some n) : whole x = n := by
  unfold whole
  rw [h]
  rfl

theorem canonical (x : Float) : Canonical x.toModel.unpack :=
  canonical_unpack _

/-- An operation whose result is whole before it is packed. -/
theorem whole?_ofModel_pack {u : UnpackedFloat} {n : ℤ} (hu : Canonical u)
    (h : number? u = some (n : ℚ)) : whole? (.ofModel (.pack u)) = some n := by
  have hunpack : (Float.Model.pack u).unpack = u := unpack_pack hu
  rw [whole?_eq_some]
  show number? (Float.Model.pack u).unpack = _
  rw [hunpack, h]

/-! ### Sums -/

/-- A whole number has 53 digits once zeros are put behind it. -/
theorem whole_normal {n : ℕ} (hpos : n ≠ 0) (hlt : n < 2 ^ 53) :
    ∃ k : ℕ, k ≤ 52 ∧ 2 ^ 52 ≤ n * 2 ^ k ∧ n * 2 ^ k < 2 ^ 53 := by
  have hlog : n.log2 < 53 := (Nat.log2_lt hpos).mpr hlt
  have hsplit : n.log2 + (52 - n.log2) = 52 := by omega
  refine ⟨52 - n.log2, by omega, ?_, ?_⟩
  · calc 2 ^ 52 = 2 ^ n.log2 * 2 ^ (52 - n.log2) := by rw [← pow_add, hsplit]
      _ ≤ n * 2 ^ (52 - n.log2) := Nat.mul_le_mul_right _ (Nat.log2_self_le hpos)
  · calc n * 2 ^ (52 - n.log2)
        < 2 ^ (n.log2 + 1) * 2 ^ (52 - n.log2) :=
          Nat.mul_lt_mul_of_pos_right Nat.lt_log2_self (Nat.two_pow_pos _)
      _ = 2 ^ 53 := by rw [← pow_add, add_right_comm, hsplit]

theorem round_whole (s : Sign) {M n : ℕ} {E : ℤ} (hn : n ≠ 0) (hlt : n < 2 ^ 53)
    (h : (M : ℚ) * 2 ^ E = n) : Canonical (round Format.binary64 s M E) ∧
      number? (round Format.binary64 s M E) = some ((s.apply n : ℤ) : ℚ) := by
  obtain ⟨k, hk, hle, hlt'⟩ := whole_normal hn hlt
  have hscaled : ((n * 2 ^ k : ℕ) : ℚ) * 2 ^ (-(k : ℤ)) = n := by
    rw [zpow_neg, zpow_natCast]
    push_cast
    exact mul_inv_cancel_right₀ (by positivity) _
  rw [round_exact s hle hlt' (by omega) (h.trans hscaled.symm)]
  refine ⟨.normal _ _ _ _ hle hlt' (by omega) (by omega), ?_⟩
  refine congrArg some ?_
  cases s with
  | positive =>
    show (((n * 2 ^ k : ℕ) : ℤ) : ℚ) * 2 ^ (-(k : ℤ)) = ((n : ℤ) : ℚ)
    exact_mod_cast hscaled
  | negative =>
    show ((-((n * 2 ^ k : ℕ) : ℤ) : ℤ) : ℚ) * 2 ^ (-(k : ℤ)) = ((-(n : ℤ) : ℤ) : ℚ)
    rw [Int.cast_neg, Int.cast_neg, neg_mul, Int.cast_natCast, Int.cast_natCast, hscaled]

theorem normalize_whole {M E n : ℤ} (hn : |n| < 2 ^ 53) (h : (M : ℚ) * 2 ^ E = n) :
    Canonical (UnpackedFloat.normalize Format.binary64 M E .positive) ∧
      number? (UnpackedFloat.normalize Format.binary64 M E .positive) = some (n : ℚ) := by
  have hpos : (0 : ℚ) < 2 ^ E := by positivity
  have habs := abs_lt.mp hn
  unfold UnpackedFloat.normalize
  rcases lt_trichotomy M 0 with hM | hM | hM
  · have hneg : n < 0 := by
      have hM' : (M : ℚ) < 0 := by exact_mod_cast hM
      exact_mod_cast h ▸ mul_neg_of_neg_of_pos hM' hpos
    have hround := round_whole .negative (M := (-M).toNat) (n := (-n).toNat) (E := E)
      (by omega) (by omega) (by
        rw [← Int.cast_natCast, ← Int.cast_natCast (R := ℚ) (-n).toNat,
          Int.toNat_of_nonneg (by omega), Int.toNat_of_nonneg (by omega)]
        push_cast
        linarith)
    have hnumber : Sign.negative.apply ((-n).toNat : ℤ) = n := by
      show -((-n).toNat : ℤ) = n
      omega
    rw [hnumber] at hround
    rw [compare_lt_iff_lt.mpr hM]
    exact hround
  · have hzero : (n : ℚ) = 0 := by
      rw [← h, hM]
      simp
    rw [hM, hzero]
    exact ⟨.zero _, rfl⟩
  · have hpos' : 0 < n := by
      have hM' : (0 : ℚ) < M := by exact_mod_cast hM
      exact_mod_cast h ▸ mul_pos hM' hpos
    have hround := round_whole .positive (M := M.toNat) (n := n.toNat) (E := E)
      (by omega) (by omega) (by
        rw [← Int.cast_natCast, ← Int.cast_natCast (R := ℚ) n.toNat,
          Int.toNat_of_nonneg (by omega), Int.toNat_of_nonneg (by omega)]
        exact h)
    have hnumber : Sign.positive.apply (n.toNat : ℤ) = n := by
      show (n.toNat : ℤ) = n
      omega
    rw [hnumber] at hround
    rw [compare_gt_iff_gt.mpr hM]
    exact hround

/-- A mantissa that is told at a smaller exponent stands for the same number. -/
theorem aligned (s : Sign) (m : ℕ) {e f : ℤ} (h : f ≤ e) :
    ((s.apply (m <<< (e - f).toNat : ℕ) : ℤ) : ℚ) * 2 ^ f = (s.apply m : ℤ) * 2 ^ e := by
  rw [two_zpow_split h, Nat.shiftLeft_eq]
  cases s <;> simp only [Sign.apply] <;> push_cast <;> ring

theorem add_whole {u v : UnpackedFloat} (hu : Canonical u) (hv : Canonical v) {a b : ℚ} {n : ℤ}
    (ha : number? u = some a) (hb : number? v = some b) (h : a + b = n) (hn : |n| < 2 ^ 53) :
    Canonical (add Format.binary64 u v) ∧
      number? (add Format.binary64 u v) = some (n : ℚ) := by
  rcases u with _ | _ | s | ⟨s, m, e, hm⟩
  · cases ha
  · cases ha
  · cases ha
    rw [zero_add] at h
    rcases v with _ | _ | t | ⟨t, k, f, hk⟩
    · cases hb
    · cases hb
    · cases hb
      rw [← h]
      cases s <;> cases t <;> exact ⟨.zero _, rfl⟩
    · rw [← h]
      exact ⟨hv, hb⟩
  · rcases v with _ | _ | t | ⟨t, k, f, hk⟩
    · cases hb
    · cases hb
    · cases hb
      rw [add_zero] at h
      rw [← h]
      exact ⟨hu, ha⟩
    · cases ha
      cases hb
      refine normalize_whole hn ?_
      rw [Int.cast_add, add_mul, aligned s m (min_le_left e f), aligned t k (min_le_right e f), h]

theorem apply_neg (s : Sign) (n : ℤ) : (-s).apply n = -s.apply n := by
  cases s with
  | positive => rfl
  | negative => exact (neg_neg n).symm

theorem neg_number {u : UnpackedFloat} (hu : Canonical u) {a : ℚ} (ha : number? u = some a) :
    Canonical u.neg ∧ number? u.neg = some (-a) := by
  cases hu with
  | notANumber => cases ha
  | infinity s => cases ha
  | zero s =>
    cases ha
    exact ⟨.zero _, rfl⟩
  | subnormal s m hpos hlt =>
    cases ha
    refine ⟨.subnormal _ _ _ hlt, congrArg some ?_⟩
    rw [apply_neg, Int.cast_neg, neg_mul]
  | normal s m e hpos hle hlt hfirst hlast =>
    cases ha
    refine ⟨.normal _ _ _ _ hle hlt hfirst hlast, congrArg some ?_⟩
    rw [apply_neg, Int.cast_neg, neg_mul]

/-- A difference is a sum with the opposite. -/
theorem sub_eq (u v : UnpackedFloat) :
    sub Format.binary64 u v = add Format.binary64 u v.neg := by
  rcases u with s | _ | s | ⟨s, m, e, hm⟩ <;> rcases v with t | _ | t | ⟨t, k, f, hk⟩ <;> try rfl
  unfold sub add UnpackedFloat.neg
  simp only [apply_neg, sub_eq_add_neg]

variable {x y : Float} {i j : ℤ}

/-- **A whole sum below 2 ^ 53 is not rounded.** -/
theorem whole?_add (hx : whole? x = some i) (hy : whole? y = some j) (h : |i + j| < 2 ^ 53) :
    whole? (x + y) = some (i + j) := by
  rw [whole?_eq_some] at hx hy
  obtain ⟨hcanonical, hnumber⟩ := add_whole (n := i + j) (canonical x) (canonical y) hx hy
    (Int.cast_add i j).symm h
  exact whole?_ofModel_pack hcanonical hnumber

theorem whole?_neg (hx : whole? x = some i) : whole? (-x) = some (-i) := by
  rw [whole?_eq_some] at hx
  obtain ⟨hcanonical, hnumber⟩ := neg_number (canonical x) hx
  exact whole?_ofModel_pack hcanonical (by rw [hnumber, Int.cast_neg])

theorem whole?_sub (hx : whole? x = some i) (hy : whole? y = some j) (h : |i - j| < 2 ^ 53) :
    whole? (x - y) = some (i - j) := by
  rw [whole?_eq_some] at hx hy
  obtain ⟨hneg, hopposite⟩ := neg_number (canonical y) hy
  obtain ⟨hcanonical, hnumber⟩ := add_whole (n := i - j) (canonical x) hneg hx hopposite
    (by push_cast; ring) h
  rw [← sub_eq] at hcanonical hnumber
  exact whole?_ofModel_pack hcanonical hnumber

/-! ### Comparisons -/

theorem lt_iff_compare : x < y ↔ x.toModel.unpack.compare y.toModel.unpack = some .lt := by
  have hlt : x < y ↔ x.toModel.unpack.lt y.toModel.unpack = true := by
    show Float.lt x y = true ↔ _
    show decide (x.toModel.unpack.lt y.toModel.unpack = true) = true ↔ _
    rw [decide_eq_true_iff]
  rw [hlt, UnpackedFloat.lt, beq_iff_eq]

theorem le_iff_compare : x ≤ y ↔ x.toModel.unpack.compare y.toModel.unpack = some .lt ∨
    x.toModel.unpack.compare y.toModel.unpack = some .eq := by
  have hle : x ≤ y ↔ x.toModel.unpack.le y.toModel.unpack = true := by
    show Float.le x y = true ↔ _
    show decide (x.toModel.unpack.le y.toModel.unpack = true) = true ↔ _
    rw [decide_eq_true_iff]
  rw [hle, UnpackedFloat.le]
  cases x.toModel.unpack.compare y.toModel.unpack with
  | none => decide
  | some o => cases o <;> decide

theorem lt_number {a b : ℚ} (hx : number? x.toModel.unpack = some a)
    (hy : number? y.toModel.unpack = some b) : x < y ↔ a < b := by
  rw [lt_iff_compare, compare_number (canonical x) (canonical y) hx hy, Option.some.injEq,
    compare_lt_iff_lt]

theorem le_number {a b : ℚ} (hx : number? x.toModel.unpack = some a)
    (hy : number? y.toModel.unpack = some b) : x ≤ y ↔ a ≤ b := by
  rw [le_iff_compare, compare_number (canonical x) (canonical y) hx hy, Option.some.injEq,
    Option.some.injEq, compare_lt_iff_lt, compare_eq_iff_eq, le_iff_lt_or_eq]

theorem lt_whole (hx : whole? x = some i) (hy : whole? y = some j) : x < y ↔ i < j := by
  rw [whole?_eq_some] at hx hy
  rw [lt_number hx hy, Int.cast_lt]

theorem le_whole (hx : whole? x = some i) (hy : whole? y = some j) : x ≤ y ↔ i ≤ j := by
  rw [whole?_eq_some] at hx hy
  rw [le_number hx hy, Int.cast_le]

theorem whole?_zero : whole? 0 = some 0 := by
  rw [whole?_eq_some]
  rfl

theorem whole?_one : whole? 1 = some 1 := by
  rw [whole?_eq_some]
  show some (((4503599627370496 : ℤ) : ℚ) * 2 ^ (-52 : ℤ)) = _
  norm_num

theorem whole?_magnitude (hx : whole? x = some i) : whole? (magnitude x) = some |i| := by
  unfold magnitude
  have hneg : x < 0 ↔ i < 0 := lt_whole hx whole?_zero
  split
  · rename_i h
    rw [abs_of_neg (hneg.mp h)]
    exact whole?_neg hx
  · rename_i h
    rw [abs_of_nonneg (not_lt.mp (mt hneg.mpr h))]
    exact hx

theorem whole?_larger (hx : whole? x = some i) (hy : whole? y = some j) :
    whole? (larger x y) = some (max i j) := by
  unfold larger
  split
  · rename_i h
    rw [max_eq_right ((le_whole hx hy).mp h)]
    exact hy
  · rename_i h
    have hlt : j < i := not_le.mp (mt (le_whole hx hy).mpr h)
    rw [if_pos ((le_whole hy hx).mpr hlt.le), max_eq_left hlt.le]
    exact hx

/-! ### Flat quantities -/

/-- A positive whole double has 53 digits, and its last place tells its size. -/
theorem whole_finite (hx : whole? x = some i) (hpos : 0 < i) (hi : i < 10 ^ 9) :
    ∃ (m : ℕ) (e : ℤ) (hm : 0 < m), x.toModel.unpack = .finite .positive m e hm ∧
      2 ^ 52 ≤ m ∧ m < 2 ^ 53 ∧ -1074 ≤ e ∧ e ≤ -23 ∧ (m : ℚ) * 2 ^ e = i := by
  rw [whole?_eq_some] at hx
  have hpos' : (0 : ℚ) < i := by exact_mod_cast hpos
  have hone : (1 : ℚ) ≤ i := by exact_mod_cast hpos
  have hi' : (i : ℚ) < 10 ^ 9 := by exact_mod_cast hi
  have hcanonical := canonical x
  rcases hu : x.toModel.unpack with s | _ | s | ⟨s, m, e, hm⟩
  · rw [hu] at hx
    cases hx
  · rw [hu] at hx
    cases hx
  · rw [hu] at hx
    have hzero : (0 : ℚ) = i := Option.some.inj hx
    linarith
  · rw [hu] at hx hcanonical
    obtain ⟨r, hr, hreq, hnumber⟩ := number?_finite (e := e) s hm
    rw [hnumber] at hx
    cases s with
    | negative =>
      have hopposite : -r = i := Option.some.inj hx
      linarith
    | positive =>
      have hsame : r = i := Option.some.inj hx
      rw [hsame] at hreq
      cases hcanonical with
      | subnormal _ _ _ hlt =>
        have hm' : (m : ℚ) < 2 ^ 52 := by exact_mod_cast hlt
        have hsmall : (m : ℚ) * 2 ^ (-1074 : ℤ) < 2 ^ 52 * 2 ^ (-1074 : ℤ) :=
          mul_lt_mul_of_pos_right hm' (by positivity)
        have hless : (2 : ℚ) ^ 52 * 2 ^ (-1074 : ℤ) ≤ 1 := by
          rw [← zpow_natCast, ← zpow_add₀ two_ne_zero]
          exact zpow_le_one_of_nonpos₀ one_le_two (by norm_num)
        linarith
      | normal _ _ _ _ hle hlt hfirst hlast =>
        refine ⟨m, e, hm, rfl, hle, hlt, hfirst, ?_, hreq.symm⟩
        by_contra hlarge
        have hm' : (2 : ℚ) ^ 52 ≤ m := by exact_mod_cast hle
        have hpow : (2 : ℚ) ^ (-22 : ℤ) ≤ 2 ^ e := zpow_le_zpow_right₀ one_le_two (by omega)
        have hgreat : (2 : ℚ) ^ 52 * 2 ^ (-22 : ℤ) ≤ m * 2 ^ e := by gcongr
        have hbound : (10 : ℚ) ^ 9 < 2 ^ 52 * 2 ^ (-22 : ℤ) := by norm_num
        linarith

/-- The mantissa of the tolerance. -/
def toleranceDigits : ℕ := 4835703278458517

theorem tolerance_unpack : (Amount.tolerance : Float).toModel.unpack =
    .finite .positive toleranceDigits (-82) (by decide) := rfl

/-- The tolerance is a mantissa of 53 digits, and a product with it has as many more. -/
theorem log2_tolerance {m a : ℕ} (hle : 2 ^ a ≤ m) (hlt : m < 2 ^ 53) :
    52 + a ≤ (toleranceDigits * m).log2 ∧ (toleranceDigits * m).log2 < 106 := by
  have hpos : 0 < toleranceDigits * m :=
    Nat.mul_pos (by decide) ((Nat.two_pow_pos a).trans_le hle)
  have hlow : 2 ^ (52 + a) ≤ toleranceDigits * m :=
    calc 2 ^ (52 + a) = 2 ^ 52 * 2 ^ a := pow_add 2 52 a
      _ ≤ toleranceDigits * m := Nat.mul_le_mul (by decide) hle
  have hhigh : toleranceDigits * m < 2 ^ 106 :=
    calc toleranceDigits * m < 2 ^ 53 * 2 ^ 53 := Nat.mul_lt_mul'' (by decide) hlt
      _ = 2 ^ 106 := by norm_num
  exact ⟨(Nat.le_log2 hpos.ne').mpr hlow, (Nat.log2_lt hpos.ne').mpr hhigh⟩

/-- **The tolerance beside a whole quantity below 10 ^ 9** is below one. -/
theorem tolerance_mul (hx : whole? x = some i) (hpos : 0 < i) (hi : i < 10 ^ 9) :
    ∃ r : ℚ, number? (Amount.tolerance * x).toModel.unpack = some r ∧ 0 ≤ r ∧ r < 1 := by
  obtain ⟨m, e, hm, hunpack, hle, hlt, hfirst, hlast, hvalue⟩ := whole_finite hx hpos hi
  obtain ⟨hlogLow, hlogHigh⟩ := log2_tolerance hle hlt
  have hplace := lastPlace_eq (toleranceDigits * m) (-82 + e)
  obtain ⟨r, hcanonical, hnumber, hnear⟩ := roundWithAccuracy_near .positive
    (M := toleranceDigits * m) (E := -82 + e) (by omega) (by omega)
  have hproduct : (Amount.tolerance * x).toModel.unpack =
      roundWithAccuracy Format.binary64 .positive (toleranceDigits * m) (-82 + e) .exact := by
    have hmul : mul Format.binary64 (Amount.tolerance : Float).toModel.unpack x.toModel.unpack =
        roundWithAccuracy Format.binary64 .positive (toleranceDigits * m) (-82 + e) .exact := by
      rw [tolerance_unpack, hunpack]
      rfl
    show (Float.Model.pack (mul Format.binary64 (Amount.tolerance : Float).toModel.unpack
      x.toModel.unpack)).unpack = _
    rw [hmul]
    exact unpack_pack hcanonical
  refine ⟨(r : ℚ) * 2 ^ lastPlace (toleranceDigits * m) (-82 + e), ?_, by positivity, ?_⟩
  · rw [hproduct, hnumber]
    rfl
  · have hunit : (2 : ℚ) ^ lastPlace (toleranceDigits * m) (-82 + e) ≤ 2 ^ (-52 : ℤ) :=
      zpow_le_zpow_right₀ one_le_two (by omega)
    have hless : (i : ℚ) ≤ 10 ^ 9 - 1 := by
      have h : i ≤ 10 ^ 9 - 1 := by omega
      exact_mod_cast h
    calc (r : ℚ) * 2 ^ lastPlace (toleranceDigits * m) (-82 + e)
        ≤ (toleranceDigits * m : ℕ) * 2 ^ (-82 + e) +
            2 ^ lastPlace (toleranceDigits * m) (-82 + e) := hnear
      _ = toleranceDigits * 2 ^ (-82 : ℤ) * (m * 2 ^ e) +
            2 ^ lastPlace (toleranceDigits * m) (-82 + e) := by
          rw [zpow_add₀ two_ne_zero]
          push_cast
          ring
      _ ≤ toleranceDigits * 2 ^ (-82 : ℤ) * (10 ^ 9 - 1) + 2 ^ (-52 : ℤ) := by
          rw [hvalue]
          gcongr
      _ < 1 := by
          unfold toleranceDigits
          norm_num

/-- **Among whole quantities below 10 ^ 9, zero alone is flat.** -/
theorem isFlat_whole (hx : whole? x = some i) (hy : whole? y = some j) (hj : |j| < 10 ^ 9) :
    isFlat x y = true ↔ i = 0 := by
  have hscale : whole? (larger (magnitude y) 1) = some (max |j| 1) :=
    whole?_larger (whole?_magnitude hy) whole?_one
  obtain ⟨r, hr, hnonneg, hlt⟩ := tolerance_mul hscale (lt_max_of_lt_right one_pos)
    (max_lt hj (by norm_num))
  have hmagnitude := whole?_eq_some.mp (whole?_magnitude hx)
  unfold isFlat
  rw [decide_eq_true_iff]
  have hle := le_number hmagnitude hr
  constructor
  · intro h
    have habs : ((|i| : ℤ) : ℚ) < 1 := (hle.mp h).trans_lt hlt
    exact Int.abs_lt_one_iff.mp (by exact_mod_cast habs)
  · rintro rfl
    refine hle.mpr ?_
    rw [abs_zero, Int.cast_zero]
    exact hnonneg

/-! ### Finite doubles -/

theorem isFinite_iff (x : Float) :
    x.isFinite = true ↔ ∃ a, number? x.toModel.unpack = some a := by
  show x.toModel.unpack.isFinite = true ↔ _
  cases x.toModel.unpack <;> simp [UnpackedFloat.isFinite, number?]

/-- A double packed from a finite number is finite. -/
theorem isFinite_pack {u : UnpackedFloat} {a : ℚ} (hu : Canonical u) (h : number? u = some a) :
    Float.isFinite (.ofModel (.pack u)) = true := by
  have hunpack : (Float.Model.pack u).unpack = u := unpack_pack hu
  refine (isFinite_iff _).mpr ⟨a, ?_⟩
  show number? (Float.Model.pack u).unpack = _
  rw [hunpack, h]

/-- The double one. -/
def unit : UnpackedFloat :=
  .finite .positive (2 ^ 52) (-52) (Nat.two_pow_pos 52)

/-- A finite double times one is finite. -/
theorem mul_unit {u : UnpackedFloat} (hu : Canonical u) {a : ℚ} (ha : number? u = some a) :
    ∃ b, Canonical (mul Format.binary64 u unit) ∧
      number? (mul Format.binary64 u unit) = some b := by
  cases hu with
  | notANumber => cases ha
  | infinity s => cases ha
  | zero s => exact ⟨0, .zero _, rfl⟩
  | subnormal s m hpos hlt =>
    have hlog : m.log2 < 52 := (Nat.log2_lt (by omega)).mpr hlt
    have hplace : lastPlace (m * 2 ^ 52) (-1074 + -52) = -1074 := by
      rw [lastPlace_eq, log2_mul_two_pow (by omega)]
      omega
    obtain ⟨r, hround, hnumber, -⟩ := roundWithAccuracy_near (s * .positive)
      (M := m * 2 ^ 52) (E := -1074 + -52) (by omega) (by omega)
    exact ⟨_, hround, hnumber⟩
  | normal s m e hpos hle hlt hfirst hlast =>
    have hexact := roundWithAccuracy_exact (s * .positive) hle hlt hfirst 52
    have hmul : mul Format.binary64 (.finite s m e hpos) unit =
        .finite (s * .positive) m e hpos := hexact
    rw [hmul]
    exact ⟨_, .normal _ _ _ _ hle hlt hfirst hlast, rfl⟩

theorem isFinite_mul_unit {x y : Float} (hx : x.isFinite = true)
    (hy : y.toModel.unpack = unit) : (x * y).isFinite = true := by
  obtain ⟨a, ha⟩ := (isFinite_iff x).mp hx
  obtain ⟨b, hcanonical, hnumber⟩ := mul_unit (canonical x) ha
  rw [← hy] at hcanonical hnumber
  exact isFinite_pack hcanonical hnumber

/-- A finite double is zero, or above it, or below it. -/
theorem not_lt_zero_iff {x : Float} (hx : x.isFinite = true) : ¬ x < 0 ↔ 0 ≤ x := by
  obtain ⟨a, ha⟩ := (isFinite_iff x).mp hx
  have hzero := whole?_eq_some.mp whole?_zero
  rw [lt_number ha hzero, le_number hzero ha, not_lt]

theorem not_le_zero_iff {x : Float} (hx : x.isFinite = true) : ¬ x ≤ 0 ↔ 0 < x := by
  obtain ⟨a, ha⟩ := (isFinite_iff x).mp hx
  have hzero := whole?_eq_some.mp whole?_zero
  rw [le_number ha hzero, lt_number hzero ha, not_le]

theorem powersOfTen_unit (h : 0 < Float.exactlyRepresentablePowersOfTen.size) :
    Float.exactlyRepresentablePowersOfTen[0].toModel.unpack = unit := by
  simp only [Float.exactlyRepresentablePowersOfTen, List.getElem_toArray, List.getElem_cons_zero]
  rfl

/-- A whole number of 53 digits is a double. -/
theorem number?_word {n : ℕ} (h : n < 2 ^ 53) :
    number? n.toUInt64.toFloat.toModel.unpack = some (n : ℚ) := by
  have hword : n.toUInt64.toNat = n := Nat.mod_eq_of_lt (h.trans (by norm_num))
  obtain ⟨hcanonical, hnumber⟩ := normalize_whole (M := n) (E := 0) (n := n)
    (by rw [Nat.abs_cast]; exact_mod_cast h) (by simp)
  rw [← hword] at hcanonical hnumber
  have hunpack : n.toUInt64.toFloat.toModel.unpack =
      UnpackedFloat.normalize Format.binary64 n.toUInt64.toNat 0 .positive :=
    unpack_pack hcanonical
  rw [hunpack, hnumber, hword]
  rfl

/-- One of 53 digits is told by itself, -/
theorem ofScientific_small {n : ℕ} (h : n < 2 ^ 53) :
    ∃ y : Float, y.toModel.unpack = unit ∧ Float.ofScientific n false 0 = n.toUInt64.toFloat * y := by
  refine ⟨_, powersOfTen_unit (by decide), ?_⟩
  unfold Float.ofScientific
  rw [dif_pos ⟨h, by decide⟩]
  rfl

/-- and one of more, up to a word, is rounded. -/
theorem ofScientific_large {n : ℕ} (hlow : 2 ^ 53 ≤ n) (hhigh : n < 2 ^ 64) :
    -53 ≤ lastPlace (n * 2 ^ 53) (-53) ∧ lastPlace (n * 2 ^ 53) (-53) ≤ 970 ∧
      Float.ofScientific n false 0 = .ofModel (.pack
        (roundWithAccuracy Format.binary64 .positive (n * 2 ^ 53) (-53) .exact)) := by
  have hlow' : 53 ≤ n.log2 := (Nat.le_log2 (by omega)).mpr hlow
  have hhigh' : n.log2 < 64 := (Nat.log2_lt (by omega)).mpr hhigh
  have hplace : lastPlace (n * 2 ^ 53) (-53) = n.log2 - 52 := by
    rw [lastPlace_eq, log2_mul_two_pow (by omega)]
    omega
  have hscientific : UnpackedFloat.ofScientific Format.binary64 n 0 =
      roundWithAccuracy Format.binary64 .positive (n * 2 ^ 53) (-53) .exact := by
    have hpos : (0 : ℤ) < 2 ^ Format.binary64.exponentBits := by positivity
    unfold UnpackedFloat.ofScientific
    rw [dif_neg (by omega), if_neg (by decide), if_neg (by omega), if_pos (le_refl 0)]
    show roundWithAccuracy Format.binary64 (.positive * .positive) (n <<< 53 * 1) (-53 + 0)
      .exact = _
    rw [mul_one, add_zero, Nat.shiftLeft_eq]
    rfl
  refine ⟨by omega, by omega, ?_⟩
  unfold Float.ofScientific
  rw [dif_neg fun h => by omega, ← hscientific]
  rfl

/-- **A whole number that fits a word is a finite double.** -/
theorem isFinite_ofScientific {n : ℕ} (h : n < 2 ^ 64) :
    (Float.ofScientific n false 0).isFinite = true := by
  rcases Nat.lt_or_ge n (2 ^ 53) with hsmall | hlarge
  · obtain ⟨y, hy, hn⟩ := ofScientific_small hsmall
    rw [hn]
    exact isFinite_mul_unit ((isFinite_iff _).mpr ⟨_, number?_word hsmall⟩) hy
  · obtain ⟨hplace, hlast, hn⟩ := ofScientific_large hlarge h
    obtain ⟨r, hround, hnumber, -⟩ := roundWithAccuracy_near .positive hplace hlast
    rw [hn]
    exact isFinite_pack hround hnumber

end Double
end Brokerage
