/-
# Rounding and the order of doubles

A sum or a product of doubles is the exact result, rounded once. The last digit that is kept,
the one behind it and whether there are others after that tell which whole number of last
places is nearest, and in the middle of two the even one is taken (`nearest_roundedMantissa`). So
of two numbers the greater one is not rounded to the smaller double (`Nearest.mono`,
`Rounds.mono`), opposites are rounded to opposites (`Rounds.neg`), and a double is rounded to
itself (`Rounds.of_canonical`).

A double is also told by what is read off its fields (`pack_unpack`): adding zero to it
changes nothing (`zero_add_of_pos`). A number of 53 digits at most is a double, whether or not
zeros have to be put behind it (`Representable`).

Key definitions: `Nearest`, `RoundsAbove`, `Rounds`, `Representable`.
Key theorems: `Nearest.mono`, `nearest_roundedMantissa`, `nearest_shiftRight`, `roundedAt_mono`,
`Rounds.mono`, `Rounds.of_canonical`, `rounds_add`, `rounds_mul`, `pack_unpack`, `zero_add_of_pos`,
`le_of_le_of_rational`, `not_add_lt_zero`, `Representable.rounds`, `representable_rational`.
-/
import Brokerage.Proofs.Overflow

namespace Brokerage
namespace Double

open Float.Model (Format UnpackedFloat)
open Float.Model.UnpackedFloat

/-! ### The nearest mantissa -/

/-- Whether any digit behind the one that decides is set. -/
theorem stickyBit_shiftRight (M : ℕ) : ∀ k : ℕ,
    (ExtendedMantissa.ofMantissaAndAccuracy M .exact >>> (k + 1)).stickyBit = (M % 2 ^ k != 0)
  | 0 => by
    rw [pow_zero, Nat.mod_one]
    rfl
  | k + 1 => by
    have ih := stickyBit_shiftRight M k
    have hbit := roundBit_shiftRight (.ofMantissaAndAccuracy M .exact) k
    replace hbit : _ = (M / 2 ^ k % 2 != 0) := hbit
    have hstep : (ExtendedMantissa.ofMantissaAndAccuracy M .exact >>> (k + 1 + 1)).stickyBit =
        ((ExtendedMantissa.ofMantissaAndAccuracy M .exact >>> (k + 1)).roundBit ||
          (ExtendedMantissa.ofMantissaAndAccuracy M .exact >>> (k + 1)).stickyBit) := rfl
    have hpos : 0 < 2 ^ k := Nat.two_pow_pos k
    rw [hstep, hbit, ih, Nat.mod_pow_succ, Bool.eq_iff_iff]
    simp only [Bool.or_eq_true, bne_iff_ne, ne_eq, Nat.add_eq_zero_iff, Nat.mul_eq_zero]
    grind

/-- The whole number next to `x`, and of two the even one. -/
structure Nearest (r : ℕ) (x : ℚ) : Prop where
  near : |(r : ℚ) - x| ≤ 1 / 2
  even : |(r : ℚ) - x| = 1 / 2 → r % 2 = 0

/-- **Rounding keeps the order.** Only the middle of two numbers could be rounded both ways,
and there the even one is taken. -/
theorem Nearest.mono {r t : ℕ} {x y : ℚ} (hr : Nearest r x) (ht : Nearest t y) (h : x ≤ y) :
    r ≤ t := by
  by_contra hlt
  have hnext : (t : ℚ) + 1 ≤ r := by exact_mod_cast not_le.mp hlt
  have hx := abs_le.mp hr.near
  have hy := abs_le.mp ht.near
  have hrx : (r : ℚ) - x = 1 / 2 := by linarith
  have hty : (t : ℚ) - y = -(1 / 2) := by linarith
  have hreven := hr.even (by rw [hrx, abs_of_pos one_half_pos])
  have hteven := ht.even (by rw [hty, abs_neg, abs_of_pos one_half_pos])
  have hsame : (r : ℚ) = t + 1 := by linarith
  have hsame' : r = t + 1 := by exact_mod_cast hsame
  omega

/-- What stands behind the point is the digit that decides and a rest. -/
theorem div_two_pow_succ (M k : ℕ) : ∃ t : ℚ, 0 ≤ t ∧ t < 1 ∧ (t = 0 ↔ M % 2 ^ k = 0) ∧
    (M : ℚ) / 2 ^ (k + 1) = (M / 2 ^ (k + 1) : ℕ) + ((M / 2 ^ k % 2 : ℕ) + t) / 2 := by
  have hpos : (0 : ℚ) < 2 ^ k := by positivity
  have hlt : ((M % 2 ^ k : ℕ) : ℚ) < 2 ^ k := by
    exact_mod_cast Nat.mod_lt M (Nat.two_pow_pos k)
  refine ⟨(M % 2 ^ k : ℕ) / 2 ^ k, by positivity, (div_lt_one hpos).mpr hlt, ?_, ?_⟩
  · rw [div_eq_zero_iff, or_iff_left hpos.ne', Nat.cast_eq_zero]
  · have hlow : (M : ℚ) = 2 ^ k * (M / 2 ^ k : ℕ) + (M % 2 ^ k : ℕ) := by
      exact_mod_cast (Nat.div_add_mod M (2 ^ k)).symm
    have hhigh : ((M / 2 ^ k : ℕ) : ℚ) = 2 * (M / 2 ^ (k + 1) : ℕ) + (M / 2 ^ k % 2 : ℕ) := by
      rw [pow_succ, ← Nat.div_div_eq_div_mul]
      exact_mod_cast (Nat.div_add_mod (M / 2 ^ k) 2).symm
    have htwice : (2 : ℚ) ^ (k + 1) = 2 ^ k * 2 := pow_succ 2 k
    rw [htwice]
    field_simp
    rw [hhigh] at hlow
    linarith

/-- A number that is less than a half away is the nearest. -/
theorem Nearest.of_lt {r : ℕ} {x : ℚ} (h : |(r : ℚ) - x| < 1 / 2) : Nearest r x where
  near := h.le
  even := fun hhalf => absurd hhalf h.ne

/-- In the middle of two numbers the even one is taken. -/
theorem Nearest.middle (m : ℕ) : Nearest (m + m % 2) (m + 1 / 2) where
  near := by
    rcases Nat.mod_two_eq_zero_or_one m with hm | hm <;> rw [hm, abs_le] <;> push_cast <;>
      constructor <;> linarith
  even := fun _ => by omega

/-- **The digit behind a mantissa and whether others are set** tell the nearest number. -/
theorem nearest_roundedMantissa (x : ExtendedMantissa) {t : ℚ} (hnonneg : 0 ≤ t) (hless : t < 1)
    (hrest : t = 0 ↔ x.stickyBit = false) :
    Nearest x.roundedMantissa (x.mantissa + (x.roundBit.toNat + t) / 2) := by
  rcases x with ⟨m, round, sticky⟩
  cases round with
  | false =>
    have hdown : (⟨m, false, sticky⟩ : ExtendedMantissa).roundedMantissa = m := by
      cases sticky <;> rfl
    have hoff : (m : ℚ) - (m + ((0 : ℕ) + t) / 2) = -(t / 2) := by push_cast; ring
    simp only [hdown, Bool.toNat_false]
    refine .of_lt ?_
    rw [hoff, abs_neg, abs_of_nonneg (by positivity)]
    linarith
  | true =>
    simp only [Bool.toNat_true]
    cases sticky with
    | false =>
      have heven : (⟨m, true, false⟩ : ExtendedMantissa).roundedMantissa = m + m % 2 := rfl
      rw [heven, hrest.mpr rfl, Nat.cast_one, add_zero]
      exact .middle m
    | true =>
      have hpos : 0 < t := hnonneg.lt_of_ne' fun h => Bool.noConfusion (hrest.mp h)
      have hup : (⟨m, true, true⟩ : ExtendedMantissa).roundedMantissa = m + 1 := rfl
      have hoff : ((m + 1 : ℕ) : ℚ) - (m + ((1 : ℕ) + t) / 2) = (1 - t) / 2 := by push_cast; ring
      rw [hup]
      refine .of_lt ?_
      rw [hoff, abs_of_nonneg (by linarith)]
      linarith

theorem nearest_shiftRight (M : ℕ) : ∀ k : ℕ,
    Nearest (ExtendedMantissa.ofMantissaAndAccuracy M .exact >>> k).roundedMantissa
      ((M : ℚ) / 2 ^ k)
  | 0 => by
    have hsame : (ExtendedMantissa.ofMantissaAndAccuracy M .exact >>> 0).roundedMantissa = M := rfl
    rw [hsame, pow_zero, div_one]
    exact .of_lt (by simp)
  | k + 1 => by
    obtain ⟨t, hnonneg, hless, hrest, hsplit⟩ := div_two_pow_succ M k
    have hmantissa := mantissa_shiftRight (.ofMantissaAndAccuracy M .exact) (k + 1)
    have hbit := roundBit_shiftRight (.ofMantissaAndAccuracy M .exact) k
    have hsticky := stickyBit_shiftRight M k
    replace hmantissa : _ = M / 2 ^ (k + 1) := hmantissa
    replace hbit : _ = (M / 2 ^ k % 2 != 0) := hbit
    have hdigit : M / 2 ^ k % 2 = (M / 2 ^ k % 2 != 0).toNat := by
      rcases Nat.mod_two_eq_zero_or_one (M / 2 ^ k) with h | h <;> rw [h] <;> rfl
    have hothers : t = 0 ↔ (ExtendedMantissa.ofMantissaAndAccuracy M .exact >>>
        (k + 1)).stickyBit = false := by
      rw [hrest, hsticky]
      simp
    rw [hsplit, hdigit, ← hmantissa, ← hbit]
    exact nearest_roundedMantissa _ hnonneg hless hothers

/-! ### At the last place -/

/-- The rounded mantissa is the nearest one at the last place. -/
theorem nearest_roundedAt {M : ℕ} {E : ℤ} (hE : E ≤ lastPlace M E) :
    Nearest (roundedAt M E) ((M : ℚ) * 2 ^ E / 2 ^ lastPlace M E) := by
  have hpos : (2 : ℚ) ^ E ≠ 0 := by positivity
  have hsplit : (M : ℚ) * 2 ^ E / 2 ^ lastPlace M E = M / 2 ^ (lastPlace M E - E).toNat := by
    rw [two_zpow_split hE]
    exact mul_div_mul_right _ _ hpos
  rw [hsplit]
  exact nearest_shiftRight M _

/-- A greater number does not have a smaller last place. -/
theorem lastPlace_mono {M N : ℕ} {E F : ℤ} (hM : M ≠ 0) (h : (M : ℚ) * 2 ^ E ≤ N * 2 ^ F) :
    lastPlace M E ≤ lastPlace N F := by
  have hlow : (2 : ℚ) ^ ((M.log2 : ℤ) + E) ≤ M * 2 ^ E := by
    rw [zpow_add₀ two_ne_zero, zpow_natCast]
    have hlog : (2 : ℚ) ^ M.log2 ≤ M := by exact_mod_cast Nat.log2_self_le hM
    exact mul_le_mul_of_nonneg_right hlog (by positivity)
  have hhigh : (N : ℚ) * 2 ^ F < 2 ^ ((N.log2 + 1 : ℕ) + F : ℤ) := by
    rw [zpow_add₀ two_ne_zero, zpow_natCast]
    have hlog : (N : ℚ) < 2 ^ (N.log2 + 1) := by exact_mod_cast Nat.lt_log2_self
    exact mul_lt_mul_of_pos_right hlog (by positivity)
  have hexponent : (M.log2 : ℤ) + E < (N.log2 + 1 : ℕ) + F :=
    (zpow_lt_zpow_iff_right₀ one_lt_two).mp ((hlow.trans h).trans_lt hhigh)
  rw [lastPlace_eq, lastPlace_eq]
  omega

theorem roundedAt_mono {M N : ℕ} {E F : ℤ} (hM : M ≠ 0) (hN : N ≠ 0) (hE : E ≤ lastPlace M E)
    (hF : F ≤ lastPlace N F) (h : (M : ℚ) * 2 ^ E ≤ N * 2 ^ F) :
    (roundedAt M E : ℚ) * 2 ^ lastPlace M E ≤ roundedAt N F * 2 ^ lastPlace N F := by
  have hpos : (0 : ℚ) < 2 ^ lastPlace M E := by positivity
  rcases (lastPlace_mono hM h).lt_or_eq with hlast | hlast
  · -- The smaller number is rounded to the next power of two at most.
    have hle : (roundedAt M E : ℚ) ≤ 2 ^ 53 := by exact_mod_cast roundedAt_le M E
    have hleast : -1074 ≤ lastPlace M E := le_max_right _ _
    have hkept : (2 : ℚ) ^ 52 ≤ roundedAt N F := by
      exact_mod_cast le_roundedAt hF hN (by omega)
    calc (roundedAt M E : ℚ) * 2 ^ lastPlace M E ≤ 2 ^ 53 * 2 ^ lastPlace M E :=
          mul_le_mul_of_nonneg_right hle hpos.le
      _ = 2 ^ 52 * 2 ^ (lastPlace M E + 1) := by rw [zpow_add_one₀ two_ne_zero]; ring
      _ ≤ 2 ^ 52 * 2 ^ lastPlace N F := by
          gcongr
          · norm_num
          · omega
      _ ≤ roundedAt N F * 2 ^ lastPlace N F := mul_le_mul_of_nonneg_right hkept (by positivity)
  · have hscaled : (M : ℚ) * 2 ^ E / 2 ^ lastPlace M E ≤ N * 2 ^ F / 2 ^ lastPlace N F := by
      rw [← hlast]
      exact div_le_div_of_nonneg_right h hpos.le
    have hrounded := (nearest_roundedAt hE).mono (nearest_roundedAt hF) hscaled
    rw [← hlast]
    exact mul_le_mul_of_nonneg_right (by exact_mod_cast hrounded) hpos.le

/-! ### What a number is rounded to -/

/-- The number `q` above zero is rounded to `a`, however large it is. -/
def RoundsAbove (q a : ℚ) : Prop :=
  ∃ (M : ℕ) (E : ℤ), M ≠ 0 ∧ E ≤ lastPlace M E ∧ q = M * 2 ^ E ∧
    a = roundedAt M E * 2 ^ lastPlace M E

theorem RoundsAbove.signs {q a : ℚ} (h : RoundsAbove q a) : 0 < q ∧ 0 ≤ a := by
  obtain ⟨M, E, hM, -, rfl, rfl⟩ := h
  have hpos : (0 : ℚ) < M := by exact_mod_cast Nat.pos_of_ne_zero hM
  exact ⟨by positivity, by positivity⟩

theorem RoundsAbove.mono {p q a b : ℚ} (ha : RoundsAbove p a) (hb : RoundsAbove q b)
    (h : p ≤ q) : a ≤ b := by
  obtain ⟨M, E, hM, hE, rfl, rfl⟩ := ha
  obtain ⟨N, F, hN, hF, rfl, rfl⟩ := hb
  exact roundedAt_mono hM hN hE hF h

/-- The number `q` is rounded to `a`; below zero as its opposite above. -/
inductive Rounds (q a : ℚ) : Prop
  | zero (hq : q = 0) (ha : a = 0)
  | above (h : RoundsAbove q a)
  | below (h : RoundsAbove (-q) (-a))

namespace Rounds

variable {p q a b : ℚ}

theorem neg (h : Rounds q a) : Rounds (-q) (-a) := by
  cases h with
  | zero hq ha => exact .zero (by rw [hq, neg_zero]) (by rw [ha, neg_zero])
  | above h => exact .below (by rwa [neg_neg, neg_neg])
  | below h => exact .above h

/-- **The greater of two numbers is not rounded to the smaller double.** -/
theorem mono (ha : Rounds p a) (hb : Rounds q b) (h : p ≤ q) : a ≤ b := by
  cases ha with
  | zero hp ha =>
    cases hb with
    | zero _ hb => rw [ha, hb]
    | above hb => exact ha ▸ hb.signs.2
    | below hb => linarith [hb.signs.1]
  | above ha =>
    cases hb with
    | zero hq _ => linarith [ha.signs.1]
    | above hb => exact ha.mono hb h
    | below hb => linarith [ha.signs.1, hb.signs.1]
  | below ha =>
    cases hb with
    | zero _ hb => linarith [ha.signs.2]
    | above hb => linarith [ha.signs.2, hb.signs.2]
    | below hb => exact neg_le_neg_iff.mp (hb.mono ha (neg_le_neg h))

theorem unique (ha : Rounds q a) (hb : Rounds q b) : a = b :=
  le_antisymm (ha.mono hb (le_refl q)) (hb.mono ha (le_refl q))

theorem nonneg (h : Rounds q a) (hq : 0 ≤ q) : 0 ≤ a :=
  (Rounds.zero rfl rfl).mono h hq

/-- A mantissa with a sign. -/
theorem scaled (s : Sign) {M : ℕ} {E : ℤ} (hM : M ≠ 0) (hE : E ≤ lastPlace M E) :
    Rounds ((s.apply M : ℤ) * 2 ^ E) ((s.apply (roundedAt M E) : ℤ) * 2 ^ lastPlace M E) := by
  have hpositive : Rounds (M * 2 ^ E) (roundedAt M E * 2 ^ lastPlace M E) :=
    .above ⟨M, E, hM, hE, rfl, rfl⟩
  cases s with
  | positive => exact hpositive
  | negative =>
    have hnegative := hpositive.neg
    rw [← neg_mul, ← neg_mul] at hnegative
    show Rounds (((-(M : ℤ) : ℤ) : ℚ) * 2 ^ E) (((-(roundedAt M E : ℤ) : ℤ) : ℚ) * _)
    push_cast
    exact hnegative

/-- **A finite double is rounded to itself.** -/
theorem of_canonical {u : UnpackedFloat} (hu : Canonical u) (ha : number? u = some a) :
    Rounds a a := by
  have hexact : ∀ (s : Sign) {m : ℕ} {e : ℤ} (hm : 0 < m), lastPlace m e = e →
      number? (.finite s m e hm) = some a → Rounds a a := by
    intro s m e hm hlast hnumber
    have hkept : roundedAt m e = m := by
      unfold roundedAt
      rw [hlast, sub_self]
      rfl
    have hscaled := scaled s hm.ne' hlast.ge
    rw [hkept, hlast] at hscaled
    cases hnumber
    exact hscaled
  cases hu with
  | notANumber => cases ha
  | infinity s => cases ha
  | zero s =>
    cases ha
    exact .zero rfl rfl
  | subnormal s m hpos hlt =>
    have hlog : m.log2 < 52 := (Nat.log2_lt hpos.ne').mpr hlt
    exact hexact s hpos (by rw [lastPlace_eq]; omega) ha
  | normal s m e hpos hle hlt hfirst hlast =>
    exact hexact s hpos (lastPlace_normal hle hlt hfirst) ha

end Rounds

/-! ### Sums and products -/

/-- A mantissa and an exponent are rounded in whatever way they are told. -/
theorem rounds_round (s : Sign) {M : ℕ} {E : ℤ} (hM : M ≠ 0) :
    ∃ a, number? (round Format.binary64 s M E) = some a ∧ Rounds ((s.apply M : ℤ) * 2 ^ E) a := by
  have hround : round Format.binary64 s M E = roundWithAccuracy Format.binary64 s
      (M <<< (E - lastPlace M E).toNat) (E - ((E - lastPlace M E).toNat : ℤ)) .exact := rfl
  obtain ⟨k, hk⟩ : ∃ k : ℕ, k = (E - lastPlace M E).toNat := ⟨_, rfl⟩
  have hM' : M * 2 ^ k ≠ 0 := Nat.mul_ne_zero hM (Nat.two_pow_pos k).ne'
  have hlast : E - k ≤ lastPlace (M * 2 ^ k) (E - k) := by
    rw [lastPlace_mul_two_pow hM, sub_add_cancel]
    omega
  have hscaled := Rounds.scaled s hM' hlast
  have hvalue : ((s.apply (M * 2 ^ k : ℕ) : ℤ) : ℚ) * 2 ^ (E - k) = (s.apply M : ℤ) * 2 ^ E := by
    rw [zpow_sub₀ two_ne_zero, zpow_natCast]
    cases s <;> simp only [Sign.apply] <;> push_cast <;> field_simp
  rw [hvalue] at hscaled
  rw [hround, ← hk, Nat.shiftLeft_eq, roundWithAccuracy_eq s hlast]
  exact ⟨_, number?_carried s _ _, hscaled⟩

theorem rounds_normalize (M E : ℤ) :
    ∃ a, number? (UnpackedFloat.normalize Format.binary64 M E .positive) = some a ∧
      Rounds (M * 2 ^ E) a := by
  unfold UnpackedFloat.normalize
  rcases lt_trichotomy M 0 with hM | rfl | hM
  · have hround := rounds_round .negative (M := (-M).toNat) (E := E) (by omega)
    have hvalue : Sign.negative.apply ((-M).toNat : ℤ) = M := by
      show -((-M).toNat : ℤ) = M
      omega
    rw [hvalue] at hround
    rw [compare_lt_iff_lt.mpr hM]
    exact hround
  · exact ⟨0, rfl, .zero (by simp) rfl⟩
  · have hround := rounds_round .positive (M := M.toNat) (E := E) (by omega)
    have hvalue : Sign.positive.apply (M.toNat : ℤ) = M := by
      show (M.toNat : ℤ) = M
      omega
    rw [hvalue] at hround
    rw [compare_gt_iff_gt.mpr hM]
    exact hround

/-- **A sum is rounded once.** -/
theorem rounds_sum {u v : UnpackedFloat} (hu : Canonical u) (hv : Canonical v) {a b : ℚ}
    (ha : number? u = some a) (hb : number? v = some b) :
    ∃ c, number? (add Format.binary64 u v) = some c ∧ Rounds (a + b) c := by
  rcases u with _ | _ | s | ⟨s, m, e, hm⟩
  · cases ha
  · cases ha
  · cases ha
    rw [zero_add]
    rcases v with _ | _ | t | ⟨t, k, f, hk⟩
    · cases hb
    · cases hb
    · cases hb
      have hsum : add Format.binary64 (.zero s) (.zero t) =
          if s == t then .zero s else .zero .positive := rfl
      rw [hsum]
      split <;> exact ⟨0, rfl, .zero rfl rfl⟩
    · exact ⟨b, hb, .of_canonical hv hb⟩
  · rcases v with _ | _ | t | ⟨t, k, f, hk⟩
    · cases hb
    · cases hb
    · cases hb
      rw [add_zero]
      exact ⟨a, ha, .of_canonical hu ha⟩
    · cases ha
      cases hb
      rw [← aligned s m (min_le_left e f), ← aligned t k (min_le_right e f), ← add_mul,
        ← Int.cast_add]
      exact rounds_normalize _ _

/-- A product of canonical mantissas has the digits for its last place. -/
theorem product_place {s t : Sign} {m n : ℕ} {e f : ℤ} {hm : 0 < m} {hn : 0 < n}
    (hu : Canonical (.finite s m e hm)) (hv : Canonical (.finite t n f hn)) :
    e + f ≤ lastPlace (m * n) (e + f) := by
  have hlong : 2 ^ 52 ≤ m ∨ 2 ^ 52 ≤ n → e + f ≤ lastPlace (m * n) (e + f) := by
    intro hdigits
    have hle : 2 ^ 52 ≤ m * n := by
      rcases hdigits with h | h
      · exact h.trans (Nat.le_mul_of_pos_right m hn)
      · exact h.trans (Nat.le_mul_of_pos_left n hm)
    have hlog : 52 ≤ (m * n).log2 := (Nat.le_log2 (Nat.mul_pos hm hn).ne').mpr hle
    rw [lastPlace_eq]
    omega
  cases hu with
  | normal _ _ _ _ hle _ _ _ => exact hlong (.inl hle)
  | subnormal =>
    cases hv with
    | normal _ _ _ _ hle _ _ _ => exact hlong (.inr hle)
    | subnormal =>
      rw [lastPlace_eq]
      omega

theorem apply_mul (s t : Sign) (i j : ℤ) : (s * t).apply (i * j) = s.apply i * t.apply j := by
  cases s with
  | positive =>
    cases t with
    | positive => rfl
    | negative => exact (mul_neg i j).symm
  | negative =>
    cases t with
    | positive => exact (neg_mul i j).symm
    | negative => exact (neg_mul_neg i j).symm

/-- **A product is rounded once.** If it is not canonical, it is out of range. -/
theorem rounds_product {u v : UnpackedFloat} (hu : Canonical u) (hv : Canonical v) {a b : ℚ}
    (ha : number? u = some a) (hb : number? v = some b) :
    ∃ c, number? (mul Format.binary64 u v) = some c ∧ Rounds (a * b) c ∧
      (Canonical (mul Format.binary64 u v) ∨
        ∃ s, unpack Format.binary64 (pack Format.binary64 (mul Format.binary64 u v)) =
          .infinity s) := by
  rcases u with _ | _ | s | ⟨s, m, e, hm⟩
  · cases ha
  · cases ha
  · cases ha
    rcases v with _ | _ | t | ⟨t, n, f, hn⟩
    · cases hb
    · cases hb
    · exact ⟨0, rfl, .zero (zero_mul b) rfl, .inl (.zero _)⟩
    · exact ⟨0, rfl, .zero (zero_mul b) rfl, .inl (.zero _)⟩
  · rcases v with _ | _ | t | ⟨t, n, f, hn⟩
    · cases hb
    · cases hb
    · cases hb
      exact ⟨0, rfl, .zero (mul_zero a) rfl, .inl (.zero _)⟩
    · cases ha
      cases hb
      have hmul : mul Format.binary64 (.finite s m e hm) (.finite t n f hn) =
          roundWithAccuracy Format.binary64 (s * t) (m * n) (e + f) .exact := rfl
      have hplace := product_place hu hv
      have hne : m * n ≠ 0 := (Nat.mul_pos hm hn).ne'
      have hrounds := Rounds.scaled (s * t) hne hplace
      have hvalue : (((s * t).apply (m * n : ℕ) : ℤ) : ℚ) * 2 ^ (e + f) =
          (s.apply m : ℤ) * 2 ^ e * ((t.apply n : ℤ) * 2 ^ f) := by
        rw [zpow_add₀ two_ne_zero, Nat.cast_mul, apply_mul, Int.cast_mul]
        ring
      rw [hvalue] at hrounds
      rw [hmul]
      refine ⟨_, ?_, hrounds, ?_⟩
      · rw [roundWithAccuracy_eq _ hplace]
        exact number?_carried _ _ _
      · rcases roundWithAccuracy_fate (s * t) hne hplace with ⟨-, h, -⟩ | ⟨-, h⟩
        · exact .inl h
        · exact .inr ⟨_, h⟩

variable {x y : Float}

/-- What a double that was put together from a canonical number stands for. -/
theorem rational_packed {u : UnpackedFloat} {c : ℚ} (hx : x.toModel = .pack u) (hu : Canonical u)
    (hc : number? u = some c) : rational x = c := by
  have hunpack : (Float.Model.pack u).unpack = u := unpack_pack hu
  refine rational_eq ?_
  rw [hx, hunpack, hc]

theorem rounds_add (hx : x.isFinite = true) (hy : y.isFinite = true)
    (h : (x + y).isFinite = true) : Rounds (rational x + rational y) (rational (x + y)) := by
  have hpacks := packs_add (canonical x) (canonical y) (number?_rational hx) (number?_rational hy)
  obtain ⟨c, hc, hrounds⟩ :=
    rounds_sum (canonical x) (canonical y) (number?_rational hx) (number?_rational hy)
  obtain ⟨hcanonical, -⟩ := hpacks.within ((isFinite_add_iff hx hy).mp h)
  rw [rational_packed (x := x + y) rfl hcanonical hc]
  exact hrounds

theorem rounds_mul (hx : x.isFinite = true) (hy : y.isFinite = true)
    (h : (x * y).isFinite = true) : Rounds (rational x * rational y) (rational (x * y)) := by
  obtain ⟨c, hc, hrounds, hfate⟩ :=
    rounds_product (canonical x) (canonical y) (number?_rational hx) (number?_rational hy)
  rcases hfate with hcanonical | ⟨s, hinfinite⟩
  · rw [rational_packed (x := x * y) rfl hcanonical hc]
    exact hrounds
  · have hproduct : IsInfinite (x * y) s := hinfinite
    rw [hproduct.not_isFinite] at h
    cases h

/-! ### Fields, read and put together -/

/-- The fields of a double, put together again. -/
theorem packComponents_fields (b : BitVec Format.binary64.numBits) :
    packComponents Format.binary64 (Sign.ofBitVec (unpackSign b)) (unpackExponent b)
      (unpackMantissa b) = b := by
  have hsign : ∀ v : BitVec 1, (Sign.ofBitVec v).toBitVec = v := by decide
  have hfirst : BitVec.extractLsb' 63 1 b ++ BitVec.extractLsb' 52 11 b =
      BitVec.extractLsb' 52 12 b := BitVec.extractLsb'_append_extractLsb'_eq_extractLsb' rfl
  have hwhole : BitVec.extractLsb' 52 12 b ++ BitVec.extractLsb' 0 52 b =
      BitVec.extractLsb' 0 64 b := BitVec.extractLsb'_append_extractLsb'_eq_extractLsb' rfl
  show ((Sign.ofBitVec (BitVec.extractLsb' 63 1 b)).toBitVec ++ BitVec.extractLsb' 52 11 b) ++
    BitVec.extractLsb' 0 52 b = b
  rw [hsign, hfirst, hwhole]
  exact BitVec.extractLsb'_eq_self

theorem pack_subnormal (s : Sign) {m : ℕ} (hpos : 0 < m) (hlt : m < 2 ^ 52) :
    pack Format.binary64 (.finite s m (-1074) hpos) =
      packComponents Format.binary64 s 0#11 (BitVec.ofNat 52 m) := by
  have hlog : ¬ m.log2 + 1 = Format.binary64.mantissaBits := by
    have hshort : m.log2 < 52 := (Nat.log2_lt hpos.ne').mpr hlt
    show ¬ m.log2 + 1 = 53
    omega
  unfold pack
  rw [if_neg (by decide), if_neg hlog]

theorem pack_normal (s : Sign) {m : ℕ} {e : ℤ} (hpos : 0 < m) (hle : 2 ^ 52 ≤ m)
    (hlt : m < 2 ^ 53) (hlast : e ≤ 971) :
    pack Format.binary64 (.finite s m e hpos) =
      packComponents Format.binary64 s (BitVec.ofNat 11 (e + 1075).toNat) (BitVec.ofNat 52 m) := by
  have hbias := biased e
  unfold pack
  simp only [hbias, log2_normal hle hlt]
  rw [if_neg (by show ¬ 2 ^ 11 ≤ _; omega),
    if_pos (show 52 + 1 = Format.binary64.mantissaBits from rfl)]

/-- A number is told by its digits if these are as many as the field has. -/
theorem ofNat_digits {n : ℕ} (v : BitVec n) : BitVec.ofNat n v.toNat = v :=
  (BitVec.ofNat_toNat n v).trans (BitVec.setWidth_eq v)

theorem pack_fields_subnormal {b : BitVec Format.binary64.numBits}
    (hfirst : unpackExponent b = 0#11) (hpos : 0 < (unpackMantissa b).toNat) :
    pack Format.binary64 (.finite (.ofBitVec (unpackSign b)) (unpackMantissa b).toNat (-1074)
      hpos) = b := by
  have hmantissa : (unpackMantissa b).toNat < 2 ^ 52 := (unpackMantissa b).isLt
  have hsame : BitVec.ofNat 52 (unpackMantissa b).toNat = unpackMantissa b := ofNat_digits _
  rw [pack_subnormal _ hpos hmantissa, hsame, ← hfirst]
  exact packComponents_fields b

theorem pack_fields_normal {b : BitVec Format.binary64.numBits}
    (hlast : unpackExponent b ≠ -1#11) (hpos : 0 < (1#1 ++ unpackMantissa b).toNat) :
    pack Format.binary64 (.finite (.ofBitVec (unpackSign b)) (1#1 ++ unpackMantissa b).toNat
      ((unpackExponent b).toNat - 1075) hpos) = b := by
  have hmantissa : (unpackMantissa b).toNat < 2 ^ 52 := (unpackMantissa b).isLt
  have hexponent : (unpackExponent b).toNat < 2048 := (unpackExponent b).isLt
  have hbelow : (unpackExponent b).toNat ≠ 2047 := fun h => hlast (BitVec.eq_of_toNat_eq h)
  have happend : (1#1 ++ unpackMantissa b).toNat = 2 ^ 52 + (unpackMantissa b).toNat :=
    toNat_one_append _
  have hexp : BitVec.ofNat 11 ((unpackExponent b).toNat - 1075 + 1075 : ℤ).toNat =
      unpackExponent b := by
    rw [sub_add_cancel, Int.toNat_natCast]
    exact ofNat_digits _
  have hsame : BitVec.ofNat 52 (2 ^ 52 + (unpackMantissa b).toNat) = unpackMantissa b := by
    refine BitVec.eq_of_toNat_eq ?_
    rw [BitVec.toNat_ofNat]
    omega
  rw [pack_normal _ hpos (by omega) (by omega) (by omega), happend, hsame, hexp]
  exact packComponents_fields b

/-- What is read off the fields of a double gives the fields again. The only double that is
no number has fields of its own. -/
theorem pack_unpack_fields {b : BitVec Format.binary64.numBits} (h : Format.binary64.Valid b) :
    pack Format.binary64 (unpack Format.binary64 b) = b := by
  have hfields := packComponents_fields b
  have hbias : ((Format.binary64.exponentBias : ℕ) : ℤ) +
      (Format.binary64.mantissaBitsWithoutImplicit : ℕ) = 1075 := rfl
  unfold unpack
  dsimp only
  by_cases hlast : unpackExponent b = -1#11
  · rw [if_pos hlast]
    by_cases hzero : unpackMantissa b = 0#52
    · rw [hlast, hzero] at hfields
      rw [if_pos hzero]
      exact hfields
    · rw [if_neg hzero]
      exact (h.eq_packedNaN hlast hzero).symm
  · rw [if_neg hlast]
    by_cases hfirst : unpackExponent b = 0#11
    · rw [if_pos hfirst]
      by_cases hzero : unpackMantissa b = 0#52
      · rw [hfirst, hzero] at hfields
        rw [dif_pos hzero]
        exact hfields
      · have he : ((unpackExponent b).toNat : ℤ) - ((Format.binary64.exponentBias : ℕ) +
            (Format.binary64.mantissaBitsWithoutImplicit : ℕ)) + 1 = -1074 := by
          rw [hfirst, hbias]
          rfl
        rw [dif_neg hzero]
        simp only [he]
        exact pack_fields_subnormal hfirst _
    · rw [if_neg hfirst]
      simp only [hbias]
      exact pack_fields_normal hlast _

/-- **A double is told by what is read off its fields.** -/
theorem pack_unpack (x : Float) : Float.ofModel (.pack x.toModel.unpack) = x := by
  rcases x with ⟨⟨⟨b⟩, hvalid⟩⟩
  have hbits : pack Format.binary64 (unpack Format.binary64 b) = b := pack_unpack_fields hvalid
  have hmodel : Float.Model.pack (Float.Model.unpack ⟨⟨b⟩, hvalid⟩) = ⟨⟨b⟩, hvalid⟩ := by
    unfold Float.Model.pack Float.Model.unpack
    simp only [hbits]
  exact congrArg Float.ofModel hmodel

/-! ### Comparisons -/

theorem le_iff_rational (hx : x.isFinite = true) (hy : y.isFinite = true) :
    x ≤ y ↔ rational x ≤ rational y :=
  le_number (number?_rational hx) (number?_rational hy)

theorem lt_iff_rational (hx : x.isFinite = true) (hy : y.isFinite = true) :
    x < y ↔ rational x < rational y :=
  lt_number (number?_rational hx) (number?_rational hy)

theorem rational_zero : rational 0 = 0 :=
  rational_eq (whole?_eq_some.mp whole?_zero)

theorem rational_one : rational 1 = 1 :=
  rational_eq (whole?_eq_some.mp whole?_one)

theorem rational_magnitude (hx : x.isFinite = true) : rational (magnitude x) = |rational x| := by
  have hzero : (0 : Float).isFinite = true := rfl
  unfold magnitude
  split
  · rename_i h
    have hneg : rational x < 0 := rational_zero ▸ (lt_iff_rational hx hzero).mp h
    rw [(rational_neg hx).2, abs_of_neg hneg]
  · rename_i h
    have hnonneg : ¬ rational x < 0 := rational_zero ▸ mt (lt_iff_rational hx hzero).mpr h
    rw [abs_of_nonneg (not_lt.mp hnonneg)]

theorem rational_larger (hx : x.isFinite = true) (hy : y.isFinite = true) :
    rational (larger x y) = max (rational x) (rational y) := by
  unfold larger
  by_cases h : x ≤ y
  · rw [if_pos h, max_eq_right ((le_iff_rational hx hy).mp h)]
  · have hless := not_le.mp (mt (le_iff_rational hx hy).mpr h)
    rw [if_neg h, if_pos ((le_iff_rational hy hx).mpr hless.le), max_eq_left hless.le]

/-- Adding to zero changes nothing, unless it turns the zero below into the one above. -/
theorem zero_add_of_pos (hx : 0 < x) : 0 + x = x := by
  have hsum : add Format.binary64 (0 : Float).toModel.unpack x.toModel.unpack = x.toModel.unpack := by
    rw [lt_iff_compare, zero_unpack] at hx
    rw [zero_unpack]
    rcases hu : x.toModel.unpack with t | _ | t | ⟨t, k, f, hk⟩
    · rfl
    · rfl
    · rw [hu] at hx
      cases hx
    · rfl
  show Float.ofModel (.pack (add Format.binary64 (0 : Float).toModel.unpack x.toModel.unpack)) = x
  rw [hsum, pack_unpack]

/-- The infinite double below zero is as small as any finite one. -/
theorem IsInfinite.le_of_negative (h : IsInfinite x .negative) (hy : y.isFinite = true) :
    x ≤ y := by
  obtain ⟨a, ha⟩ := (isFinite_iff y).mp hy
  rw [le_iff_compare, show x.toModel.unpack = .infinity .negative from h]
  rcases hu : y.toModel.unpack with _ | _ | t | ⟨t, k, f, hk⟩
  · rw [hu] at ha
    cases ha
  · rw [hu] at ha
    cases ha
  · exact .inl rfl
  · exact .inl rfl

/-- What a finite double bounds, any greater one bounds. -/
theorem le_of_le_of_rational {z : Float} (hy : y.isFinite = true) (hz : z.isFinite = true)
    (hxy : x ≤ y) (h : rational y ≤ rational z) : x ≤ z := by
  have hnumber : x.isNaN = false := by
    rw [le_iff_compare] at hxy
    show x.toModel.unpack.isNaN = false
    rcases hu : x.toModel.unpack with _ | _ | t | ⟨t, k, f, hk⟩
    · rfl
    · rw [hu] at hxy
      rcases hxy with hxy | hxy <;> cases hxy
    · rfl
    · rfl
  rcases isNaN_eq_false_iff.mp hnumber with hx | ⟨s, hx⟩
  · exact (le_iff_rational hx hz).mpr (((le_iff_rational hx hy).mp hxy).trans h)
  · cases s with
    | positive => exact absurd hxy (hx.not_le hy)
    | negative => exact hx.le_of_negative hz

theorem unpack_of_isNaN (h : x.isNaN = true) : x.toModel.unpack = .notANumber := by
  change x.toModel.unpack.isNaN = true at h
  rcases hu : x.toModel.unpack with _ | _ | t | ⟨t, k, f, hk⟩ <;> rw [hu] at h
  all_goals first | rfl | cases h

/-- A sum is read off as it was computed, if its fields can hold it. -/
theorem unpack_add {u : UnpackedFloat} (hu : Canonical u)
    (h : add Format.binary64 x.toModel.unpack y.toModel.unpack = u) :
    (x + y).toModel.unpack = u := by
  show (Float.Model.pack (add Format.binary64 x.toModel.unpack y.toModel.unpack)).unpack = _
  rw [h]
  exact unpack_pack hu

theorem IsInfinite.not_lt_zero (h : IsInfinite x .positive) : ¬ x < 0 := by
  rw [lt_iff_compare, show x.toModel.unpack = .infinity .positive from h, zero_unpack]
  rintro ⟨⟩

theorem IsInfinite.positive_of_not_lt (h : IsInfinite x s) (hx : ¬ x < 0) :
    IsInfinite x .positive := by
  cases s with
  | positive => exact h
  | negative => exact absurd h.lt_zero hx

theorem IsInfinite.positive_of_le (h : IsInfinite x s) (hx : 0 ≤ x) : IsInfinite x .positive := by
  cases s with
  | positive => exact h
  | negative =>
    rw [le_iff_compare, zero_unpack, show x.toModel.unpack = .infinity .negative from h] at hx
    rcases hx with hx | hx <;> cases hx

/-- A sum with an amount that is not below zero is below zero only if the other amount is. -/
theorem not_add_lt_zero (hx : ¬ x < 0) (hy : 0 ≤ y) : ¬ x + y < 0 := by
  by_cases hnan : x.isNaN = true
  · have hsum : (x + y).toModel.unpack = .notANumber :=
      unpack_add .notANumber (by rw [unpack_of_isNaN hnan]; rfl)
    rw [lt_iff_compare, hsum]
    rintro ⟨⟩
  · have hy' := isNaN_eq_false_iff.mp (isNaN_of_zero_le hy)
    have hx' := isNaN_eq_false_iff.mp (Bool.eq_false_iff.mpr hnan)
    rcases hx' with hx' | ⟨s, hx'⟩ <;> rcases hy' with hy' | ⟨t, hy'⟩
    · have hsum : 0 ≤ rational x + rational y :=
        add_nonneg (rational_nonneg hx' ((not_lt_zero_iff hx').mp hx)) (rational_nonneg hy' hy)
      rcases add_fate hx' hy' with ⟨-, hfinite⟩ | ⟨-, hinfinite⟩ | ⟨hbelow, -⟩
      · refine (not_lt_zero_iff hfinite).mpr ((le_iff_rational rfl hfinite).mpr ?_)
        exact rational_zero.trans_le ((rounds_add hx' hy' hfinite).nonneg hsum)
      · exact hinfinite.not_lt_zero
      · exact absurd hbelow (not_le.mpr (by linarith [overflow_pos]))
    · have hsum : IsInfinite (x + y) .positive := unpack_add (.infinity _) (by
        rw [show y.toModel.unpack = _ from hy'.positive_of_le hy]
        obtain ⟨a, ha⟩ := (isFinite_iff x).mp hx'
        rcases hu : x.toModel.unpack with _ | _ | t | ⟨t, k, f, hk⟩
        · rw [hu] at ha
          cases ha
        · rw [hu] at ha
          cases ha
        · rfl
        · rfl)
      exact hsum.not_lt_zero
    · exact (infinite_add (hx'.positive_of_not_lt hx) hy').not_lt_zero
    · have hsum : IsInfinite (x + y) .positive := unpack_add (.infinity _) (by
        rw [show x.toModel.unpack = _ from hx'.positive_of_not_lt hx,
          show y.toModel.unpack = _ from hy'.positive_of_le hy]
        rfl)
      exact hsum.not_lt_zero

/-! ### Numbers that are doubles -/

/-- A number that is not below zero and has 53 digits at most, from the least place on. -/
def Representable (b : ℚ) : Prop :=
  ∃ (k : ℕ) (g : ℤ), k < 2 ^ 53 ∧ -1074 ≤ g ∧ b = k * 2 ^ g

/-- **Such a number is rounded to itself.** -/
theorem Representable.rounds {b : ℚ} (h : Representable b) : Rounds b b := by
  obtain ⟨k, g, hk, hg, rfl⟩ := h
  rcases Nat.eq_zero_or_pos k with rfl | hpos
  · have hzero : ((0 : ℕ) : ℚ) * 2 ^ g = 0 := by rw [Nat.cast_zero, zero_mul]
    exact .zero hzero hzero
  · -- Zeros are put behind the digits up to the last place.
    obtain ⟨T, hT⟩ : ∃ T, T = lastPlace k g := ⟨_, rfl⟩
    have hplace : T ≤ g := by
      have hlog : k.log2 < 53 := (Nat.log2_lt hpos.ne').mpr hk
      rw [hT, lastPlace_eq]
      omega
    obtain ⟨j, hj⟩ : ∃ j : ℕ, g = T + j := ⟨(g - T).toNat, by omega⟩
    have hlast : lastPlace (k * 2 ^ j) T = T := by
      rw [lastPlace_mul_two_pow hpos.ne', ← hj, ← hT]
    have hkept : roundedAt (k * 2 ^ j) T = k * 2 ^ j := by
      unfold roundedAt
      rw [hlast, sub_self]
      rfl
    have hvalue : (k : ℚ) * 2 ^ g = (k * 2 ^ j : ℕ) * 2 ^ T := by
      rw [hj, zpow_add₀ two_ne_zero, zpow_natCast]
      push_cast
      ring
    refine .above ⟨k * 2 ^ j, T, Nat.mul_ne_zero hpos.ne' (Nat.two_pow_pos j).ne', hlast.ge,
      hvalue, ?_⟩
    rw [hkept, hlast, hvalue]

theorem representable_natCast {n : ℕ} (h : n < 2 ^ 53) : Representable n :=
  ⟨n, 0, h, by norm_num, by rw [zpow_zero, mul_one]⟩

/-- A double above zero is a mantissa at a place. -/
theorem exists_scaled (hx : x.isFinite = true) (h : 0 < rational x) :
    ∃ (m : ℕ) (e : ℤ) (hm : 0 < m), x.toModel.unpack = .finite .positive m e hm ∧
      rational x = m * 2 ^ e ∧ m < 2 ^ 53 ∧ -1074 ≤ e ∧ (-1074 < e → 2 ^ 52 ≤ m) := by
  have hnumber := number?_rational hx
  have hcanonical := canonical x
  rcases hu : x.toModel.unpack with _ | _ | t | ⟨t, m, e, hm⟩ <;> rw [hu] at hnumber hcanonical
  · cases hnumber
  · cases hnumber
  · have hzero : 0 = rational x := Option.some.inj hnumber
    rw [← hzero] at h
    exact absurd h (lt_irrefl 0)
  · obtain ⟨r, hr, hvalue, hsigned⟩ := number?_finite t hm (e := e)
    rw [hsigned, Option.some.injEq] at hnumber
    cases t with
    | negative =>
      have hbelow : -r = rational x := hnumber
      linarith
    | positive =>
      have habove : r = rational x := hnumber
      refine ⟨m, e, hm, rfl, habove ▸ hvalue, ?_⟩
      cases hcanonical with
      | subnormal _ _ _ hlt => exact ⟨by omega, by omega, by omega⟩
      | normal _ _ _ _ hle hlt hfirst _ => exact ⟨hlt, hfirst, fun _ => hle⟩

theorem zero_of_rational (hx : x.isFinite = true) (h : rational x = 0) :
    ∃ s, x.toModel.unpack = .zero s := by
  have hnumber := number?_rational hx
  rcases hu : x.toModel.unpack with _ | _ | t | ⟨t, m, e, hm⟩ <;> rw [hu] at hnumber
  · cases hnumber
  · cases hnumber
  · exact ⟨t, rfl⟩
  · obtain ⟨r, hr, -, hsigned⟩ := number?_finite t hm (e := e)
    rw [hsigned, Option.some.injEq, h] at hnumber
    cases t with
    | negative => exact absurd (neg_eq_zero.mp hnumber) hr.ne'
    | positive => exact absurd hnumber hr.ne'

theorem representable_rational (hx : x.isFinite = true) (h : 0 ≤ rational x) :
    Representable (rational x) := by
  rcases h.eq_or_lt with hzero | hpos
  · rw [← hzero]
    exact ⟨0, 0, by norm_num, by norm_num, by rw [Nat.cast_zero, zero_mul]⟩
  · obtain ⟨m, e, -, -, hvalue, hlt, hfirst, -⟩ := exists_scaled hx hpos
    exact ⟨m, e, hlt, hfirst, hvalue⟩

end Double
end Brokerage
