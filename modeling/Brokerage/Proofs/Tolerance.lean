/-
# How far a quantity may miss zero

Positions, resting orders and sells are judged by one test: a rest counts as zero if it is
small beside the amounts it was computed from. The test takes the tolerance of their magnitude
(`Slight`), but never of less than one: below a scale of one every rest up to the tolerance
itself counts as zero (`SlightBesideOne`, `isFlat_iff`). So a quantity that is not above the
tolerance cannot be held at all, though it was paid for (`get?_bought`).

A sell may exceed the position that it is checked against by a flat excess. The ledger
then judges the rest by the larger of the position and the quantity, which is at least as
lenient, so that a sell that was accepted never leaves a short position
(`Ledger.accepted_sell_covered`).

Key definitions: `Double.Slight`, `Double.SlightBesideOne`, `Double.Negligible`.
Key theorems: `Double.tolerance_mul_le`, `Double.tolerance_mul_lt`, `Double.isFlat_iff`,
`Double.isFlat_of_opposite`, `Double.isFlat_self_iff`, `Ledger.isFlat_of_accepted`,
`Ledger.accepted_sell_covered`, `Ledger.get?_bought`, `tolerance_at_every_use`.
-/
import Brokerage.Proofs.Finite
import Brokerage.Proofs.Rounding

namespace Brokerage

namespace Double

open Float.Model (Format UnpackedFloat)
open Float.Model.UnpackedFloat

variable {x y z : Float}

/-! ### A fraction of a scale -/

theorem rational_tolerance : rational Amount.tolerance = toleranceDigits * 2 ^ (-82 : ℤ) :=
  rational_eq rfl

theorem rational_tolerance_bounds :
    0 < rational Amount.tolerance ∧ rational Amount.tolerance ≤ 1 / 2 := by
  rw [rational_tolerance]
  unfold toleranceDigits
  constructor <;> norm_num

theorem tolerance_mul_one : (Amount.tolerance * 1 : Float) = Amount.tolerance := by
  decide +kernel

/-- **The tolerance of a larger scale is not smaller.** -/
theorem tolerance_mul_le (hx : x.isFinite = true) (hy : y.isFinite = true)
    (h : rational x ≤ rational y) :
    rational (Amount.tolerance * x) ≤ rational (Amount.tolerance * y) := by
  have hexact : rational Amount.tolerance * rational x ≤
      rational Amount.tolerance * rational y :=
    mul_le_mul_of_nonneg_left h rational_tolerance_bounds.1.le
  exact (rounds_mul rfl hx (isFinite_tolerance_mul hx)).mono
    (rounds_mul rfl hy (isFinite_tolerance_mul hy)) hexact

theorem tolerance_mul_congr (hx : x.isFinite = true) (hy : y.isFinite = true)
    (h : rational x = rational y) :
    rational (Amount.tolerance * x) = rational (Amount.tolerance * y) :=
  le_antisymm (tolerance_mul_le hx hy h.le) (tolerance_mul_le hy hx h.ge)

theorem tolerance_mul_nonneg (hx : x.isFinite = true) (h : 0 ≤ rational x) :
    0 ≤ rational (Amount.tolerance * x) :=
  (rounds_mul rfl hx (isFinite_tolerance_mul hx)).nonneg
    (mul_nonneg rational_tolerance_bounds.1.le h)

/-- A mantissa of 53 digits that stands for one or more has its last place near one. -/
theorem exponent_of_one_le {k : ℕ} {f : ℤ} (hk : k < 2 ^ 53) (h : 1 ≤ (k : ℚ) * 2 ^ f) :
    -53 < f := by
  by_contra hf
  have hk' : (k : ℚ) < 2 ^ 53 := by exact_mod_cast hk
  have hsmall : (k : ℚ) * 2 ^ f < 1 :=
    calc (k : ℚ) * 2 ^ f ≤ k * 2 ^ (-53 : ℤ) := by
          gcongr
          · norm_num
          · omega
      _ < 2 ^ 53 * 2 ^ (-53 : ℤ) := by gcongr
      _ = 1 := by norm_num
  exact absurd h (not_le.mpr hsmall)

/-- Half of a double that is one or more is a double. -/
theorem representable_half (hx : x.isFinite = true) (h : 1 ≤ rational x) :
    Representable (rational x / 2) := by
  obtain ⟨m, e, -, -, hvalue, hlt, -, -⟩ := exists_scaled hx (zero_lt_one.trans_le h)
  have hplace : -53 < e := exponent_of_one_le hlt (hvalue ▸ h)
  refine ⟨m, e - 1, hlt, by omega, ?_⟩
  rw [hvalue, zpow_sub_one₀ two_ne_zero]
  ring

/-- **The tolerance of a scale of one or more is less than the scale,** also rounded. -/
theorem tolerance_mul_lt (hx : x.isFinite = true) (h : 1 ≤ rational x) :
    rational (Amount.tolerance * x) < rational x := by
  have hexact : rational Amount.tolerance * rational x ≤ rational x / 2 := by
    have hhalf := mul_le_mul_of_nonneg_right rational_tolerance_bounds.2 (zero_le_one.trans h)
    linarith
  have hrounded : rational (Amount.tolerance * x) ≤ rational x / 2 :=
    (rounds_mul rfl hx (isFinite_tolerance_mul hx)).mono (representable_half hx h).rounds hexact
  linarith

/-! ### Flat quantities -/

/-- The rest is small beside the amounts it was computed from. -/
def Slight (rest scale : Float) : Prop :=
  magnitude rest ≤ Amount.tolerance * magnitude scale

/-- The amounts are below one, and the rest is small beside one. -/
def SlightBesideOne (rest scale : Float) : Prop :=
  ¬ 1 ≤ magnitude scale ∧ magnitude rest ≤ Amount.tolerance

/-- What the test for flat quantities lets pass. -/
def Negligible (rest scale : Float) : Prop :=
  Slight rest scale ∨ SlightBesideOne rest scale

instance (rest scale : Float) : Decidable (Slight rest scale) :=
  inferInstanceAs (Decidable (_ ≤ _))

instance (rest scale : Float) : Decidable (Negligible rest scale) :=
  inferInstanceAs (Decidable (_ ∨ _ ∧ _))

theorem le_congr (hy : y.isFinite = true) (hz : z.isFinite = true)
    (h : rational y = rational z) : x ≤ y ↔ x ≤ z :=
  ⟨fun hxy => le_of_le_of_rational hy hz hxy h.le,
    fun hxz => le_of_le_of_rational hz hy hxz h.ge⟩

theorem not_le_of_isNaN (h : y.isNaN = true) : ¬ x ≤ y := by
  rw [le_iff_compare, unpack_of_isNaN h]
  cases x.toModel.unpack <;> rintro (h | h) <;> cases h

/-- The scale that the test takes. -/
theorem isFlat_iff_le (rest scale : Float) : isFlat rest scale = true ↔
    magnitude rest ≤ Amount.tolerance * larger (magnitude scale) 1 :=
  decide_eq_true_iff

/-- Beside an undefined scale the test takes one, and nothing is small. -/
theorem scale_of_isNaN (h : y.isNaN = true) :
    larger (magnitude y) 1 = 1 ∧ ¬ 1 ≤ magnitude y ∧ ¬ Slight x y := by
  have hnone := unpack_of_isNaN h
  have hmagnitude : magnitude y = y := by
    unfold magnitude
    rw [if_neg]
    rw [lt_iff_compare, hnone]
    rintro ⟨⟩
  have hnever : ∀ z : Float, ¬ y ≤ z := by
    intro z
    rw [le_iff_compare, hnone]
    rintro (h | h) <;> cases h
  have hproduct : (Amount.tolerance * y).isNaN = true := by
    show (Float.Model.pack (mul Format.binary64 (Amount.tolerance : Float).toModel.unpack
      y.toModel.unpack)).unpack.isNaN = true
    rw [hnone]
    rfl
  unfold Slight larger
  rw [hmagnitude, if_neg (hnever 1), if_neg (not_le_of_isNaN h), if_neg (hnever y)]
  exact ⟨rfl, not_le_of_isNaN h, not_le_of_isNaN hproduct⟩

/-- **A quantity is flat** if it is small beside the amounts that it was computed from, or
beside one if these are smaller. -/
theorem isFlat_iff (rest scale : Float) : isFlat rest scale = true ↔ Negligible rest scale := by
  have hone : (1 : Float).isFinite = true := rfl
  rw [isFlat_iff_le]
  unfold Negligible SlightBesideOne
  by_cases hnan : scale.isNaN = true
  · obtain ⟨hlarger, hbelow, hslight⟩ := scale_of_isNaN hnan (x := rest)
    rw [hlarger, tolerance_mul_one]
    simp only [hslight, hbelow, not_false_eq_true, true_and, false_or]
  rcases isNaN_eq_false_iff.mp (Bool.eq_false_iff.mpr hnan) with hfinite | ⟨s, hinfinite⟩
  · have hmagnitude := isFinite_magnitude hfinite
    have hlarger := isFinite_larger hmagnitude hone
    have hrational := rational_larger hmagnitude hone
    have hproduct := isFinite_tolerance_mul hmagnitude
    rw [rational_one] at hrational
    rw [le_iff_rational hone hmagnitude, rational_one]
    rcases le_or_gt 1 (rational (magnitude scale)) with h | h
    · rw [max_eq_left h] at hrational
      have hsame := tolerance_mul_congr hlarger hmagnitude hrational
      rw [le_congr (isFinite_tolerance_mul hlarger) hproduct hsame]
      simp only [h, not_true_eq_false, false_and, or_false]
      exact Iff.rfl
    · rw [max_eq_right h.le, ← rational_one] at hrational
      have hsame := tolerance_mul_congr hlarger hone hrational
      have hless : rational (Amount.tolerance * magnitude scale) ≤
          rational (Amount.tolerance * 1) :=
        tolerance_mul_le hmagnitude hone (rational_one ▸ h.le)
      have hslight : Slight rest scale → magnitude rest ≤ Amount.tolerance * 1 := fun hslight =>
        le_of_le_of_rational hproduct (isFinite_tolerance_mul hone) hslight hless
      rw [le_congr (isFinite_tolerance_mul hlarger) (isFinite_tolerance_mul hone) hsame]
      rw [tolerance_mul_one] at hslight ⊢
      exact ⟨fun hrest => .inr ⟨not_le.mpr h, hrest⟩, fun hrest => hrest.elim hslight (·.2)⟩
  · have hpositive := infinite_magnitude hinfinite
    have habove : (1 : Float) ≤ magnitude scale := hpositive.le rfl
    rw [larger_infinite hpositive rfl]
    simp only [habove, not_true_eq_false, false_and, or_false]
    exact Iff.rfl

/-- What the test compares, for finite quantities. -/
theorem isFlat_iff_rational (hx : x.isFinite = true) (hy : y.isFinite = true) :
    isFlat x y = true ↔
      |rational x| ≤ rational (Amount.tolerance * larger (magnitude y) 1) := by
  rw [isFlat_iff_le, le_iff_rational (isFinite_magnitude hx)
    (isFinite_tolerance_mul (isFinite_larger (isFinite_magnitude hy) rfl)), rational_magnitude hx]

/-- Zero is flat. -/
theorem isFlat_of_rational_zero (hx : x.isFinite = true) (hy : y.isFinite = true)
    (h : rational x = 0) : isFlat x y = true := by
  rw [isFlat_iff_rational hx hy, h, abs_zero]
  refine tolerance_mul_nonneg (isFinite_larger (isFinite_magnitude hy) rfl) ?_
  rw [rational_larger (isFinite_magnitude hy) rfl, rational_one]
  exact zero_le_one.trans (le_max_right _ _)

/-- **What is flat beside one scale is flat beside a larger one,** and so is its opposite. -/
theorem isFlat_of_opposite {x' y' : Float} (hx : x.isFinite = true) (hy : y.isFinite = true)
    (hx' : x'.isFinite = true) (hy' : y'.isFinite = true) (hopposite : rational x' = -rational x)
    (hscale : |rational y| ≤ |rational y'|) (h : isFlat x y = true) : isFlat x' y' = true := by
  have hone : (1 : Float).isFinite = true := rfl
  have hlarger := isFinite_larger (isFinite_magnitude hy) hone
  have hlarger' := isFinite_larger (isFinite_magnitude hy') hone
  rw [isFlat_iff_rational hx hy] at h
  rw [isFlat_iff_rational hx' hy', hopposite, abs_neg]
  refine h.trans (tolerance_mul_le hlarger hlarger' ?_)
  rw [rational_larger (isFinite_magnitude hy) hone, rational_larger (isFinite_magnitude hy') hone,
    rational_magnitude hy, rational_magnitude hy']
  exact max_le_max_right _ hscale

theorem not_lt_zero_of_le (h : 0 ≤ x) : ¬ x < 0 := by
  rcases isNaN_eq_false_iff.mp (isNaN_of_zero_le h) with hx | ⟨s, hinfinite⟩
  · exact (not_lt_zero_iff hx).mpr h
  · exact (hinfinite.positive_of_le h).not_lt_zero

/-- The scale of the first change of a position. -/
theorem larger_zero (h : 0 ≤ x) : larger (magnitude 0) (magnitude x) = x := by
  have hzero : magnitude (0 : Float) = 0 := by decide +kernel
  have hmagnitude : magnitude x = x := if_neg (not_lt_zero_of_le h)
  rw [hzero, hmagnitude]
  exact if_pos h

/-- **A quantity is flat beside itself** if it is infinite or not above the tolerance. -/
theorem isFlat_self_iff (h : 0 < x) :
    isFlat x x = true ↔ ¬ (x.isFinite = true ∧ ¬ x ≤ Amount.tolerance) := by
  have hx0 : (0 : Float) ≤ x := le_iff_compare.mpr (.inl (lt_iff_compare.mp h))
  rcases isNaN_eq_false_iff.mp (isNaN_of_zero_le hx0) with hx | ⟨s, hinfinite⟩
  · have hpos := rational_nonneg hx hx0
    have hone : (1 : Float).isFinite = true := rfl
    have hlarger := isFinite_larger (isFinite_magnitude hx) hone
    have hrational := rational_larger (isFinite_magnitude hx) hone
    rw [rational_magnitude hx, rational_one, abs_of_nonneg hpos] at hrational
    have hsmall : x ≤ Amount.tolerance ↔ rational x ≤ rational Amount.tolerance :=
      le_iff_rational hx rfl
    rw [isFlat_iff_rational hx hx, abs_of_nonneg hpos, hsmall]
    rcases le_or_gt 1 (rational x) with habove | hbelow
    · rw [max_eq_left habove] at hrational
      have hlt := tolerance_mul_lt hx habove
      have hbounds := rational_tolerance_bounds.2
      rw [tolerance_mul_congr hlarger hx hrational]
      refine iff_of_false (not_le.mpr hlt) (not_not_intro ⟨hx, not_le.mpr ?_⟩)
      linarith
    · rw [max_eq_right hbelow.le, ← rational_one] at hrational
      rw [tolerance_mul_congr hlarger hone hrational, tolerance_mul_one]
      simp [hx]
  · refine iff_of_true (isFlat_of_infinite_scale (isNaN_of_zero_le hx0) hinfinite) ?_
    rw [hinfinite.not_isFinite]
    exact fun hfinite => Bool.false_ne_true hfinite.1

/-! ### A difference taken both ways -/

/-- The difference and its opposite are rounded alike. -/
theorem rational_sub_swap (hx : x.isFinite = true) (hy : y.isFinite = true)
    (hsub : (y - x).isFinite = true) (hadd : (x + -y).isFinite = true) :
    rational (x + -y) = -rational (y - x) := by
  have hrounds := rounds_add hx (rational_neg hy).1 hadd
  rw [(rational_neg hy).2] at hrounds
  rw [sub_eq_add_opposite] at hsub ⊢
  have hswapped := (rounds_add hy (rational_neg hx).1 hsub).neg
  rw [(rational_neg hx).2, show -(rational y + -rational x) = rational x + -rational y by ring]
    at hswapped
  exact hrounds.unique hswapped

/-- Taking off less than there is leaves a rest that is not below zero. -/
theorem zero_le_rest (hx : x.isNaN = false) (hy : y.isFinite = true) (hx0 : 0 ≤ x) (hy0 : 0 ≤ y)
    (h : ¬ x ≤ y) : 0 ≤ x + -y := by
  obtain ⟨hnegative, hopposite⟩ := rational_neg hy
  rcases isNaN_eq_false_iff.mp hx with hfinite | ⟨s, hinfinite⟩
  · have hrest : (x + -y).isFinite = true := by
      rw [← sub_eq_add_opposite]
      exact isFinite_sub_of_nonneg hfinite hy hx0 hy0
    have hless : rational y ≤ rational x :=
      (not_le.mp (mt (le_iff_rational hfinite hy).mpr h)).le
    refine (le_iff_rational rfl hrest).mpr (rational_zero ▸ ?_)
    refine (rounds_add hfinite hnegative hrest).nonneg ?_
    rw [hopposite]
    linarith
  · exact (infinite_add (hinfinite.positive_of_le hx0) hnegative).le rfl

end Double

open Double

/-! ### A sell that is accepted -/

namespace Ledger

section

variable {α : Type} [Amount α] {l : Ledger α}

/-- A sell is accepted beside a long position that it exceeds by a flat excess at most. -/
theorem refusal?_eq_none_iff {order : Order α} (hsell : order.kind.isSell = true) :
    l.refusal? order = none ↔ ¬ l.position order.symbol ≤ 0 ∧
      (l.position order.symbol < order.quantity →
        isFlat (order.quantity - l.position order.symbol) (l.position order.symbol) = true) := by
  unfold refusal?
  simp only [hsell, Bool.not_true, Bool.false_eq_true, if_false]
  by_cases hheld : l.position order.symbol ≤ 0
  · simp [hheld]
  · by_cases hless : l.position order.symbol < order.quantity <;> simp [hheld, hless]

theorem apply_sell {e : Execution α} (hkind : e.kind = .sell) (hcash : ¬ l.cash + e.value < 0) :
    l.apply e = .ok ⟨l.cash + e.value, l.adjusted e.symbol (-e.quantity)⟩ := by
  unfold apply settle
  simp only [hkind, if_neg hcash]

end

variable {l m : Ledger Float} {e : Execution Float} {order : Order Float}

/-- **Selling no less than is held leaves nothing,** if the sell is accepted. -/
theorem isFlat_of_accepted {held quantity : Float} (hheld : held.isNaN = false)
    (hpos : ¬ held ≤ 0) (hquantity : quantity.isFinite = true)
    (hflat : held < quantity → isFlat (quantity - held) held = true) (hall : held ≤ quantity) :
    isFlat (held + -quantity) (larger (magnitude held) (magnitude (-quantity))) = true := by
  obtain ⟨hnegative, hopposite⟩ := rational_neg hquantity
  have hheld0 : 0 ≤ held := zero_le_of_not_le hheld hpos
  rcases isNaN_eq_false_iff.mp hheld with hfinite | ⟨s, hinfinite⟩
  · have hheldq := rational_nonneg hfinite hheld0
    have hallq := (le_iff_rational hfinite hquantity).mp hall
    have hquantity0 : 0 ≤ quantity :=
      (le_iff_rational rfl hquantity).mpr (rational_zero ▸ hheldq.trans hallq)
    have hrest : (held + -quantity).isFinite = true := by
      rw [← sub_eq_add_opposite]
      exact isFinite_sub_of_nonneg hfinite hquantity hheld0 hquantity0
    have hscale : (larger (magnitude held) (magnitude (-quantity))).isFinite = true :=
      isFinite_larger (isFinite_magnitude hfinite) (isFinite_magnitude hnegative)
    have hmagnitude : |rational held| ≤
        |rational (larger (magnitude held) (magnitude (-quantity)))| := by
      rw [rational_larger (isFinite_magnitude hfinite) (isFinite_magnitude hnegative),
        rational_magnitude hfinite]
      exact (le_max_left _ _).trans (le_abs_self _)
    by_cases hless : held < quantity
    · have hexcess : (quantity - held).isFinite = true :=
        isFinite_sub_of_nonneg hquantity hfinite hquantity0 hheld0
      exact isFlat_of_opposite hexcess hfinite hrest hscale
        (rational_sub_swap hfinite hquantity hexcess hrest) hmagnitude (hflat hless)
    · have hequal : rational held = rational quantity :=
        le_antisymm hallq (not_lt.mp (mt (lt_iff_rational hfinite hquantity).mpr hless))
      have hrounds := rounds_add hfinite hnegative hrest
      rw [hopposite, hequal, add_neg_cancel] at hrounds
      exact isFlat_of_rational_zero hrest hscale (hrounds.unique (.zero rfl rfl))
  · have hpositive := infinite_magnitude hinfinite
    rw [larger_infinite hpositive (isFinite_magnitude hnegative)]
    exact isFlat_of_infinite_scale (isNaN_add hheld hnegative) hpositive

/-- **An accepted sell does not make a short position.** Filled in full upon the ledger that it
was checked against, it is booked, and what is held of its symbol is not below zero. If it is
for all that is held or more, the symbol is not held any longer: the excess that the check
tolerates is flat to the ledger too. The cash of a ledger is never below zero
(`apply_cash_not_neg`). -/
theorem accepted_sell_covered (hcash : ¬ l.cash < 0)
    (hheld : (l.position order.symbol).isNaN = false) (hsell : order.kind.isSell = true)
    (haccepted : l.refusal? order = none) (hkind : e.kind = .sell)
    (hsymbol : e.symbol = order.symbol) (hquantity : e.quantity = order.quantity)
    (hvalue : 0 ≤ e.value) :
    ∃ m, l.apply e = .ok m ∧ 0 ≤ m.position order.symbol ∧
      (l.position order.symbol ≤ order.quantity → m.holdings.get? order.symbol = none) := by
  obtain ⟨hpos, hflat⟩ := (refusal?_eq_none_iff hsell).mp haccepted
  obtain ⟨hfinite, hquantity0⟩ := order.quantity_finite
  have hbooked : l.apply e =
      .ok ⟨l.cash + e.value, l.adjusted order.symbol (-order.quantity)⟩ := by
    rw [← hsymbol, ← hquantity]
    exact apply_sell hkind (not_add_lt_zero hcash hvalue)
  have hdropped := isFlat_of_accepted hheld hpos hfinite hflat
  have hentry := get?_adjusted l order.symbol order.symbol (-order.quantity)
  rw [if_pos rfl] at hentry
  refine ⟨_, hbooked, ?_, fun hall => by rw [hentry, if_pos (hdropped hall)]⟩
  unfold position at hentry ⊢
  rw [hentry]
  split
  · decide +kernel
  · rename_i hkept
    exact zero_le_rest hheld hfinite (zero_le_of_not_le hheld hpos) hquantity0
      fun hall => hkept (hdropped hall)

/-- A ledger that holds what is left of 0.3 after 0.1 was sold, a little less than 0.2. -/
def sampleRest : Ledger Float :=
  ⟨1000, (∅ : Table Symbol Float).insert sampleSymbol (0.3 - 0.1)⟩

def sampleSellAll : Order Float :=
  ⟨⟨.marketSell, sampleSymbol, 0.2, none, none⟩, by decide +kernel⟩

/-- A sell of 0.2 exceeds the position, is accepted and leaves nothing. -/
theorem sample_accepted_sell_covered :
    sampleRest.position sampleSymbol < sampleSellAll.quantity ∧
    ∃ m, sampleRest.apply (.sold sampleSymbol 2 0.2 101 ⟨1⟩) = .ok m ∧
      m.holdings.get? sampleSymbol = none := by
  have hless : sampleRest.position sampleSymbol < sampleSellAll.quantity := by decide +kernel
  have hle : sampleRest.position sampleSymbol ≤ sampleSellAll.quantity := by decide +kernel
  have haccepted : sampleRest.refusal? sampleSellAll = none := by
    rw [refusal?_eq_none_iff rfl]
    decide +kernel
  obtain ⟨m, hbooked, -, hall⟩ := accepted_sell_covered
    (l := sampleRest) (e := .sold sampleSymbol 2 0.2 101 ⟨1⟩)
    (by decide +kernel) (by decide +kernel) rfl haccepted rfl rfl rfl (by decide +kernel)
  exact ⟨hless, m, hbooked, hall hle⟩

/-! ### What the test decides -/

/-- A position is dropped by a fill in its symbol that leaves next to nothing. -/
theorem get?_apply_eq_none_iff {symbol : Symbol} {held : Float} (h : l.apply e = .ok m)
    (hentry : l.holdings.get? symbol = some held) :
    m.holdings.get? symbol = none ↔ ∃ change, e.signedQuantity = some change ∧
      e.symbol = symbol ∧
        Negligible (held + change) (larger (magnitude held) (magnitude change)) := by
  rcases apply_cases h with ⟨-, cash, change, hchange, -, rfl⟩ | ⟨-, hnone, rfl⟩
  · simp only [get?_adjusted, hchange, Option.some.injEq, exists_eq_left', ← isFlat_iff]
    by_cases hsymbol : e.symbol = symbol
    · subst hsymbol
      have hposition : l.position e.symbol = held := position_of_some hentry
      simp only [hposition, if_true, true_and]
      split <;> simp_all
    · simp [hsymbol, hentry]
  · simp [hnone, hentry]

/-- **A buy into a symbol that is not held** is entered as it is if its quantity is above the
tolerance, and leaves nothing held otherwise, though it is paid for. -/
theorem get?_bought (h : l.apply e = .ok m) (hkind : e.kind = .buy)
    (hnone : l.holdings.get? e.symbol = none) (hpos : 0 < e.quantity) :
    m.holdings.get? e.symbol =
      if e.quantity.isFinite = true ∧ ¬ e.quantity ≤ Amount.tolerance then some e.quantity
      else none := by
  have hposition : l.position e.symbol = 0 := position_of_none hnone
  have hrest : l.position e.symbol + e.quantity = e.quantity := by
    rw [hposition]
    exact zero_add_of_pos hpos
  have hscale : larger (magnitude (l.position e.symbol)) (magnitude e.quantity) = e.quantity := by
    rw [hposition]
    exact larger_zero (le_iff_compare.mpr (.inl (lt_iff_compare.mp hpos)))
  rcases apply_cases h with ⟨-, cash, change, hchange, -, rfl⟩ | ⟨-, hchange, -⟩
  · unfold Execution.signedQuantity at hchange
    rw [hkind] at hchange
    obtain rfl := Option.some.inj hchange
    rw [get?_adjusted, if_pos rfl, hrest, hscale]
    have hflat := isFlat_self_iff hpos
    split <;> simp_all
  · unfold Execution.signedQuantity at hchange
    rw [hkind] at hchange
    cases hchange

end Ledger

theorem isSpent_iff {α : Type} [Amount α] {rest scale : α} :
    isSpent rest scale = true ↔ rest ≤ 0 ∨ isFlat rest scale = true := by
  unfold isSpent
  rw [Bool.or_eq_true, decide_eq_true_iff]

namespace Blotter

section

variable {α : Type} [Amount α] {b c : Blotter α} {e : Execution α} {id : OrderId}
  {entry : Resting α}

/-- A fill completes the order that it names if it leaves nothing or next to nothing open. -/
theorem get?_fill_eq_none_iff (b : Blotter α) (e : Execution α)
    (hentry : b.resting.get? id = some entry) : (b.fill e).2.resting.get? id = none ↔
      e.order = id ∧ isSpent (entry.remaining - e.quantity)
        (larger entry.remaining e.quantity) = true := by
  unfold fill
  by_cases hid : e.order = id
  · subst hid
    rw [hentry]
    simp only
    split
    · simp_all [Table.get?_erase]
    · simp_all [Table.get?_insert]
  · cases b.resting.get? e.order with
    | none => simp [hentry, hid]
    | some other =>
      simp only
      split
      · simp [Table.get?_erase, hentry, hid]
      · simp [Table.get?_insert, hentry, hid]

/-- A modify completes the order that it refers to if it leaves nothing or next to nothing open;
the instruction itself leaves in any case. -/
theorem get?_modify_eq_none_iff (h : b.modify e = .ok c)
    (hentry : b.resting.get? id = some entry) : c.resting.get? id = none ↔
      e.order = id ∨ (e.reference = some id ∧ isSpent (entry.remaining + e.quantity)
        (larger entry.remaining (magnitude e.quantity)) = true) := by
  have herased := Table.get?_erase b.resting e.order
  rw [modify_eq] at h
  cases hreference : e.reference with
  | none => rw [hreference] at h; cases h
  | some target =>
    simp only [hreference] at h
    split at h
    · cases htarget : (b.resting.erase e.order).get? target with
      | none =>
        simp only [htarget] at h
        cases h
        by_cases hid : e.order = id <;> by_cases ht : target = id <;> simp_all
      | some other =>
        simp only [htarget] at h
        split at h <;> cases h
        · by_cases hid : e.order = id <;> by_cases ht : target = id <;>
            simp_all [Table.get?_erase]
        · by_cases hid : e.order = id <;> by_cases ht : target = id <;>
            simp_all [Table.get?_insert]
    · cases h

end

end Blotter

/-- **One tolerance, at every use.** What leaves a position within it drops the position, what
leaves that little open completes a resting order, whether it is a fill or a modify, and a sell
may exceed the position by no more. The tolerance is taken of the larger of the amounts
involved, but if these are below one, of one. So of what is bought into a symbol that is not
held, nothing is entered unless its quantity is above the tolerance. -/
theorem tolerance_at_every_use (l : Ledger Float) (b : Blotter Float) (e : Execution Float)
    (symbol : Symbol) (id : OrderId) :
    (∀ m held, l.apply e = .ok m → l.holdings.get? symbol = some held →
      (m.holdings.get? symbol = none ↔ ∃ change, e.signedQuantity = some change ∧
        e.symbol = symbol ∧
          Negligible (held + change) (larger (magnitude held) (magnitude change)))) ∧
    (∀ entry, b.resting.get? id = some entry →
      ((b.fill e).2.resting.get? id = none ↔ e.order = id ∧
        (entry.remaining - e.quantity ≤ 0 ∨
          Negligible (entry.remaining - e.quantity) (larger entry.remaining e.quantity)))) ∧
    (∀ c entry, b.modify e = .ok c → b.resting.get? id = some entry →
      (c.resting.get? id = none ↔ e.order = id ∨ (e.reference = some id ∧
        (entry.remaining + e.quantity ≤ 0 ∨ Negligible (entry.remaining + e.quantity)
          (larger entry.remaining (magnitude e.quantity)))))) ∧
    (∀ order : Order Float, order.kind.isSell = true →
      (l.refusal? order = none ↔ ¬ l.position order.symbol ≤ 0 ∧
        (l.position order.symbol < order.quantity →
          Negligible (order.quantity - l.position order.symbol) (l.position order.symbol)))) ∧
    (∀ m, l.apply e = .ok m → e.kind = .buy →
      l.holdings.get? e.symbol = none → 0 < e.quantity →
        m.holdings.get? e.symbol =
          if e.quantity.isFinite = true ∧ ¬ e.quantity ≤ Amount.tolerance then some e.quantity
          else none) := by
  refine ⟨?_, ?_, ?_, ?_, ?_⟩
  · intro m held happly hentry
    exact Ledger.get?_apply_eq_none_iff happly hentry
  · intro entry hentry
    rw [Blotter.get?_fill_eq_none_iff b e hentry, isSpent_iff, isFlat_iff]
    exact Iff.rfl
  · intro c entry hmodify hentry
    rw [Blotter.get?_modify_eq_none_iff hmodify hentry, isSpent_iff, isFlat_iff]
    exact Iff.rfl
  · intro order hsell
    rw [Ledger.refusal?_eq_none_iff hsell, isFlat_iff]
    exact Iff.rfl
  · intro m happly hkind hnone hpos
    exact Ledger.get?_bought happly hkind hnone hpos

/-- A buy limit order for so little that the tolerance takes it for nothing. -/
def sampleTinyOrder : Order Float :=
  ⟨⟨.limitBuy, sampleSymbol, 1.5e-9, some 9, none⟩, by decide +kernel⟩

/-- The order rests under a number. -/
def sampleTinyBlotter : Blotter Float :=
  ⟨[], (∅ : Table OrderId (Resting Float)).insert ⟨7⟩ ⟨sampleTinyOrder, 1.5e-9⟩⟩

def sampleTinyLedger : Ledger Float :=
  ⟨1000, (∅ : Table Symbol Float).insert sampleSymbol 1.2e-9⟩

def sampleTinySell : Order Float :=
  ⟨⟨.marketSell, sampleSymbol, 1.9e-9, none, none⟩, by decide +kernel⟩

/-- A ledger with cash and a position of one. -/
def sampleSingle : Ledger Float :=
  ⟨1000, (∅ : Table Symbol Float).insert sampleSymbol 1⟩

/-- A sell of all that is held drops the position, an order of 1.5e-9 outlives a fill of a sixth
and a modify, a sell of 0.2 is accepted beside a little less, and a buy of 1 is entered. -/
theorem sample_tolerance_at_every_use :
    (∃ m, sampleSingle.apply (.sold sampleSymbol 2 1 101 ⟨1⟩) = .ok m ∧
      m.holdings.get? sampleSymbol = none) ∧
    (sampleTinyBlotter.fill (.bought sampleSymbol 0 2.5e-10 101 ⟨7⟩)).2.resting.get? ⟨7⟩ ≠ none ∧
    (∃ c, sampleTinyBlotter.modify (.modified sampleSymbol 1 101 ⟨8⟩ ⟨7⟩) = .ok c ∧
      c.resting.get? ⟨7⟩ ≠ none) ∧
    Ledger.sampleRest.refusal? Ledger.sampleSellAll = none ∧
    (∃ m, (Ledger.ofCash (1000 : Float)).apply (.bought sampleSymbol 100 1 101 ⟨1⟩) = .ok m ∧
      m.holdings.get? sampleSymbol = some 1) := by
  have hledger := (tolerance_at_every_use sampleSingle sampleTinyBlotter
    (.sold sampleSymbol 2 1 101 ⟨1⟩) sampleSymbol ⟨7⟩).1
  have hfill := (tolerance_at_every_use sampleSingle sampleTinyBlotter
    (.bought sampleSymbol 0 2.5e-10 101 ⟨7⟩) sampleSymbol ⟨7⟩).2.1
  have hmodify := (tolerance_at_every_use sampleSingle sampleTinyBlotter
    (.modified sampleSymbol 1 101 ⟨8⟩ ⟨7⟩) sampleSymbol ⟨7⟩).2.2.1
  have hsell := (tolerance_at_every_use Ledger.sampleRest sampleTinyBlotter
    (.sold sampleSymbol 2 1 101 ⟨1⟩) sampleSymbol ⟨7⟩).2.2.2.1
  have hbuy := (tolerance_at_every_use (.ofCash 1000) sampleTinyBlotter
    (.bought sampleSymbol 100 1 101 ⟨1⟩) sampleSymbol ⟨7⟩).2.2.2.2
  refine ⟨⟨_, rfl, ?_⟩, ?_, ⟨_, rfl, ?_⟩, ?_, ⟨_, rfl, ?_⟩⟩
  · exact (hledger _ 1 rfl rfl).mpr ⟨-1, rfl, rfl, by decide +kernel⟩
  · exact mt (hfill _ rfl).mp (by decide +kernel)
  · exact mt (hmodify _ _ rfl rfl).mp (by decide +kernel)
  · exact (hsell Ledger.sampleSellAll rfl).mpr ⟨by decide +kernel, fun _ => by decide +kernel⟩
  · exact (hbuy _ rfl rfl rfl (by decide +kernel)).trans (if_pos (by decide +kernel))

/-- **What is paid for is not held.** A buy of 1e-9 takes 100 off the cash and leaves no
position, an order of 1.5e-9 is complete though a third of it is open, and a sell of 1.9e-9 is
accepted beside a position of 1.2e-9; none of these rests is small beside the amounts. -/
theorem sample_purchase_lost :
    (∃ m, (Ledger.ofCash (1000 : Float)).apply (.bought sampleSymbol 100 1e-9 101 ⟨1⟩) = .ok m ∧
      (m.cash == 900) = true ∧ m.holdings.get? sampleSymbol = none ∧
      ¬ Slight (0 + 1e-9) (larger (magnitude 0) (magnitude 1e-9))) ∧
    ((sampleTinyBlotter.fill (.bought sampleSymbol 0 1e-9 101 ⟨7⟩)).2.resting.get? ⟨7⟩ = none ∧
      ¬ (1.5e-9 - 1e-9 : Float) ≤ 0 ∧ ¬ Slight (1.5e-9 - 1e-9) (larger 1.5e-9 1e-9)) ∧
    (sampleTinyLedger.refusal? sampleTinySell = none ∧ ¬ Slight (1.9e-9 - 1.2e-9) 1.2e-9) := by
  refine ⟨⟨_, rfl, ?_, ?_, ?_⟩, ⟨?_, ?_, ?_⟩, ?_, ?_⟩
  · decide +kernel
  · decide +kernel
  · decide +kernel
  · decide +kernel
  · decide +kernel
  · decide +kernel
  · decide +kernel
  · decide +kernel

end Brokerage
