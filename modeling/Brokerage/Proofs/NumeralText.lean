/-
# Numerals as they are written and read

The digits of a number spell it (`ofDigits_toDigits`), and a row of digits is read up to
what is no digit (`readDigits_append`). So a text of digits, with a point or an exponent if
need be, is read back as the numeral that it spells, whatever stands behind it
(`Spells`): a whole number as itself (`spells_integer`), and a decimal in the layout of
amounts as a numeral of the same value (`spells_decimal`).

Key definitions: `EndsNumeral`, `Spells`, `wholeNumeral`, `Numeral.decimal`,
`Numeral.signed`, `Scaled.value`.
Key theorems: `readNumeral_whole`, `spells_integer`, `spells_decimal`.
-/
import Mathlib.Algebra.Order.Field.Power
import Mathlib.Data.Rat.Cast.Order
import Mathlib.Tactic.FieldSimp
import Mathlib.Tactic.Positivity
import Mathlib.Tactic.Ring
import Brokerage.Json.Read
import Brokerage.Json.Value

namespace Brokerage

namespace Decimal

/-- The number that a decimal stands for. -/
def Scaled.value (d : Scaled) : ℚ :=
  d.digits * 10 ^ d.power

/-- The digits of a numeral and the power of the last of them. -/
def Numeral.decimal (n : Numeral) : Scaled :=
  ⟨ofDigits (n.whole ++ n.fraction), n.exponent - n.fraction.length⟩

/-- The whole number of a numeral without point and exponent. -/
def Numeral.signed (n : Numeral) : ℤ :=
  if n.negative then -(ofDigits n.whole : ℤ) else ofDigits n.whole

end Decimal

namespace Json

open Decimal (Numeral Scaled ofDigits)

/-! ### Digits -/

/-- The values of a row of digits. -/
def digitValues (cs : List Char) : List Nat :=
  cs.map (·.toNat - 48)

theorem ofDigits_digitValues (cs : List Char) :
    ofDigits (digitValues cs) = Nat.ofDigitChars 10 cs 0 := by
  unfold ofDigits digitValues
  rw [List.foldl_map]
  rfl

/-- The digits of a number spell it. -/
theorem ofDigits_toDigits (n : ℕ) : ofDigits (digitValues (Nat.toDigits 10 n)) = n := by
  rw [ofDigits_digitValues, Nat.ofDigitChars_ten_toDigits]

theorem isDigit_toDigits (n : ℕ) : ∀ c ∈ Nat.toDigits 10 n, c.isDigit = true :=
  fun _ hc => Nat.isDigit_of_mem_toDigits (by decide) (by decide) hc

/-- Zero alone is written with a zero in front. -/
theorem toDigits_head (n : ℕ) (hn : n ≠ 0) : (Nat.toDigits 10 n).head? ≠ some '0' := by
  induction n using Nat.strongRecOn with
  | ind n ih =>
    by_cases h : n < 10
    · rw [Nat.toDigits_of_lt_base h]
      intro hzero
      have hvalue : n.digitChar.toNat = 48 := congrArg Char.toNat (Option.some.inj hzero)
      rw [Nat.toNat_digitChar_of_lt_ten h] at hvalue
      omega
    · rw [Nat.toDigits_of_base_le (by decide) (by omega), List.head?_append_of_ne_nil]
      · exact ih (n / 10) (by omega) (by omega)
      · exact Nat.toDigits_ne_nil

/-- No digit comes next. -/
def EndsDigits (rest : List Char) : Prop :=
  ∀ c, rest.head? = some c → c.isDigit = false

/-- A row of digits is read up to what is no digit. -/
theorem readDigits_append {cs rest : List Char} (hcs : ∀ c ∈ cs, c.isDigit = true)
    (hrest : EndsDigits rest) : readDigits (cs ++ rest) = (digitValues cs, rest) := by
  have htake : rest.takeWhile Char.isDigit = [] := by
    cases rest with
    | nil => rfl
    | cons c rest => exact List.takeWhile_cons_of_neg (by simp [hrest c rfl])
  have hdrop : rest.dropWhile Char.isDigit = rest := by
    cases rest with
    | nil => rfl
    | cons c rest => exact List.dropWhile_cons_of_neg (by simp [hrest c rfl])
  unfold readDigits
  rw [List.takeWhile_append_of_pos hcs, List.dropWhile_append_of_pos hcs, htake, hdrop,
    List.append_nil]
  rfl

/-! ### The parts of a numeral -/

/-- Nothing comes next that would go on with a numeral. -/
def EndsNumeral (rest : List Char) : Prop :=
  ∀ c, rest.head? = some c → c.isDigit = false ∧ c ≠ '.' ∧ c ≠ 'e' ∧ c ≠ 'E'

theorem EndsNumeral.endsDigits {rest : List Char} (h : EndsNumeral rest) : EndsDigits rest :=
  fun c hc => (h c hc).1

def signChars (negative : Bool) : List Char :=
  if negative then ['-'] else []

/-- What is read of a numeral behind its whole part. -/
def readBehind (negative : Bool) (whole : List Nat) (cs : List Char) :
    Option (Numeral × List Char) := do
  let (fraction, cs) ← readFraction cs
  match cs with
  | 'e' :: cs | 'E' :: cs =>
    let (exponent, cs) ← readExponent cs
    return (⟨negative, whole, fraction, exponent, false⟩, cs)
  | _ => return (⟨negative, whole, fraction, 0, fraction.isEmpty⟩, cs)

/-- What is read of a numeral behind its sign. -/
def readUnsigned (negative : Bool) (cs : List Char) : Option (Numeral × List Char) :=
  match readDigits cs with
  | ([], _) => none
  | (0 :: _ :: _, _) => none
  | (whole, rest) => readBehind negative whole rest

theorem readNumeral_minus (cs : List Char) : readNumeral ('-' :: cs) = readUnsigned true cs := by
  unfold readNumeral readUnsigned
  simp only
  rcases readDigits cs with ⟨_ | ⟨_ | d, _ | ⟨e, ds⟩⟩, rest⟩ <;> rfl

theorem readNumeral_digit {c : Char} (hc : c.isDigit = true) (cs : List Char) :
    readNumeral (c :: cs) = readUnsigned false (c :: cs) := by
  have hplus : c ≠ '-' := by
    rintro rfl
    cases hc
  unfold readNumeral readUnsigned
  rcases hread : readDigits (c :: cs) with ⟨_ | ⟨_ | d, _ | ⟨e, ds⟩⟩, rest⟩ <;>
    simp [hplus, hread] <;> rfl

/-- A row of digits that a numeral can begin with. -/
structure Whole (ws : List Char) : Prop where
  digits : ∀ c ∈ ws, c.isDigit = true
  nonempty : ws ≠ []
  lead : ws.length = 1 ∨ ws.head? ≠ some '0'

theorem whole_toDigits (n : ℕ) : Whole (Nat.toDigits 10 n) where
  digits := isDigit_toDigits n
  nonempty := Nat.toDigits_ne_nil
  lead := by
    by_cases hn : n = 0
    · rw [hn, Nat.toDigits_zero]
      exact .inl rfl
    · exact .inr (toDigits_head n hn)

theorem digit_eq_zero {c : Char} (hc : c.isDigit = true) (h : c.toNat - 48 = 0) : c = '0' := by
  have hnat : 48 ≤ c.toNat := (Char.isDigit_iff_toNat.mp hc).1
  refine Char.toNat_inj.mp ?_
  show c.toNat = 48
  omega

theorem readUnsigned_whole (negative : Bool) {ws tail : List Char} (hws : Whole ws)
    (htail : EndsDigits tail) :
    readUnsigned negative (ws ++ tail) = readBehind negative (digitValues ws) tail := by
  unfold readUnsigned
  rw [readDigits_append hws.digits htail]
  rcases ws with _ | ⟨c, _ | ⟨d, ds⟩⟩
  · exact absurd rfl hws.nonempty
  · unfold digitValues
    rw [List.map_singleton]
    cases c.toNat - 48 <;> rfl
  · have hne : c.toNat - 48 ≠ 0 := fun h => by
      have hzero := digit_eq_zero (hws.digits c List.mem_cons_self) h
      rcases hws.lead with hone | hlead
      · cases hone
      · exact hlead (congrArg some hzero)
    obtain ⟨v, hv⟩ := Nat.exists_eq_succ_of_ne_zero hne
    unfold digitValues
    rw [List.map_cons, hv]
    rfl

/-- The whole part of a numeral is read with its sign. -/
theorem readNumeral_whole (negative : Bool) {ws tail : List Char} (hws : Whole ws)
    (htail : EndsDigits tail) :
    readNumeral (signChars negative ++ (ws ++ tail)) =
      readBehind negative (digitValues ws) tail := by
  cases negative with
  | true => exact (readNumeral_minus _).trans (readUnsigned_whole true hws htail)
  | false =>
    obtain ⟨c, cs, rfl⟩ := List.exists_cons_of_ne_nil hws.nonempty
    exact (readNumeral_digit (hws.digits c List.mem_cons_self) _).trans
      (readUnsigned_whole false hws htail)

theorem readFraction_none {rest : List Char} (h : rest.head? ≠ some '.') :
    readFraction rest = some ([], rest) := by
  unfold readFraction
  split
  · exact absurd rfl h
  · rfl

theorem readFraction_point {fs rest : List Char} (hfs : ∀ c ∈ fs, c.isDigit = true)
    (hne : fs ≠ []) (hrest : EndsDigits rest) :
    readFraction ('.' :: (fs ++ rest)) = some (digitValues fs, rest) := by
  obtain ⟨c, cs, rfl⟩ := List.exists_cons_of_ne_nil hne
  unfold readFraction
  simp only
  rw [readDigits_append hfs hrest]
  rfl

theorem readBehind_end (negative : Bool) (whole : List Nat) {cs rest : List Char}
    {fraction : List Nat} (hread : readFraction cs = some (fraction, rest))
    (hrest : EndsNumeral rest) :
    readBehind negative whole cs =
      some (⟨negative, whole, fraction, 0, fraction.isEmpty⟩, rest) := by
  unfold readBehind
  rw [hread]
  simp only [Option.bind_eq_bind, Option.bind_some]
  split
  · exact absurd rfl (hrest 'e' rfl).2.2.1
  · exact absurd rfl (hrest 'E' rfl).2.2.2
  · rfl

theorem readBehind_exponent (negative : Bool) (whole : List Nat) {cs es rest : List Char}
    {fraction : List Nat} {k : ℤ} (hread : readFraction cs = some (fraction, 'e' :: es))
    (hexponent : readExponent es = some (k, rest)) :
    readBehind negative whole cs = some (⟨negative, whole, fraction, k, false⟩, rest) := by
  unfold readBehind
  rw [hread]
  simp only [Option.bind_eq_bind, Option.bind_some]
  rw [hexponent]
  rfl

/-! ### The text of a whole number -/

theorem toList_natural (n : ℕ) : (toString n).toList = Nat.toDigits 10 n := by
  rw [Nat.toString_eq_repr, Nat.toList_repr]

theorem toList_integer (k : ℤ) :
    (toString k).toList = signChars (decide (k < 0)) ++ Nat.toDigits 10 k.natAbs := by
  cases k with
  | ofNat n =>
    have hpos : decide (Int.ofNat n < 0) = false := decide_eq_false (by simp)
    rw [hpos]
    exact toList_natural n
  | negSucc n =>
    have hneg : decide (Int.negSucc n < 0) = true := decide_eq_true (Int.negSucc_lt_zero n)
    rw [hneg]
    show ("-" ++ Nat.repr (n + 1)).toList = _
    rw [String.toList_append, Nat.toList_repr]
    rfl

theorem readExponent_digits {ds rest : List Char} (hds : ∀ c ∈ ds, c.isDigit = true)
    (hne : ds ≠ []) (hrest : EndsDigits rest) :
    readExponent ('+' :: (ds ++ rest)) = some ((ofDigits (digitValues ds) : ℤ), rest) ∧
      readExponent ('-' :: (ds ++ rest)) = some (-(ofDigits (digitValues ds) : ℤ), rest) := by
  obtain ⟨c, cs, rfl⟩ := List.exists_cons_of_ne_nil hne
  unfold readExponent
  simp only
  rw [readDigits_append hds hrest]
  exact ⟨rfl, rfl⟩

/-- The exponent of an amount has its sign. -/
theorem readExponent_integer (k : ℤ) {rest : List Char} (hrest : EndsDigits rest) :
    readExponent ((if 0 ≤ k then ['+'] else []) ++ (toString k).toList ++ rest) =
      some (k, rest) := by
  obtain ⟨hplus, hminus⟩ := readExponent_digits (isDigit_toDigits k.natAbs)
    Nat.toDigits_ne_nil hrest
  rw [ofDigits_toDigits] at hplus hminus
  rw [toList_integer]
  by_cases hk : 0 ≤ k
  · have hsign : decide (k < 0) = false := decide_eq_false (not_lt.mpr hk)
    rw [if_pos hk, hsign]
    refine hplus.trans ?_
    rw [Int.natAbs_of_nonneg hk]
  · have hsign : decide (k < 0) = true := decide_eq_true (not_le.mp hk)
    rw [if_neg hk, hsign]
    refine hminus.trans ?_
    have habs : -(k.natAbs : ℤ) = k := by omega
    rw [habs]

/-! ### Texts that spell a numeral -/

/-- No control character. -/
def Printed (cs : List Char) : Prop :=
  ∀ c ∈ cs, ¬ c < ' '

/-- Decided on the list; an instance that goes through all characters would be found too. -/
instance (cs : List Char) : Decidable (Printed cs) :=
  List.decidableBAll _ cs

theorem Printed.cons {c : Char} {cs : List Char} (hcs : Printed cs) (hc : ¬ c < ' ') :
    Printed (c :: cs) :=
  List.forall_mem_cons.mpr ⟨hc, hcs⟩

theorem Printed.append {cs ds : List Char} (hcs : Printed cs) (hds : Printed ds) :
    Printed (cs ++ ds) := by
  intro c hc
  rcases List.mem_append.mp hc with h | h
  · exact hcs c h
  · exact hds c h

theorem printed_digits {cs : List Char} (h : ∀ c ∈ cs, c.isDigit = true) : Printed cs := by
  intro c hc hlt
  have hdigit : 48 ≤ c.toNat := (Char.isDigit_iff_toNat.mp (h c hc)).1
  have hcontrol : c.toNat < 32 := hlt
  omega

/-- A text that begins like a numeral, has no control character and is read back as the
numeral, whatever stands behind it. -/
structure Spells (cs : List Char) (n : Numeral) : Prop where
  head : ∃ c ds, cs = c :: ds ∧ (c = '-' ∨ c.isDigit = true)
  printed : Printed cs
  reads : ∀ rest, EndsNumeral rest → readNumeral (cs ++ rest) = some (n, rest)

/-- A row of digits with what stands behind it. -/
theorem spells_parts (negative : Bool) {ws tail : List Char} {n : Numeral} (hws : Whole ws)
    (hprinted : Printed tail) (hends : ∀ rest, EndsNumeral rest → EndsDigits (tail ++ rest))
    (hread : ∀ rest, EndsNumeral rest →
      readBehind negative (digitValues ws) (tail ++ rest) = some (n, rest)) :
    Spells (signChars negative ++ (ws ++ tail)) n where
  head := by
    cases negative with
    | true => exact ⟨'-', _, rfl, .inl rfl⟩
    | false =>
      obtain ⟨c, cs, rfl⟩ := List.exists_cons_of_ne_nil hws.nonempty
      exact ⟨c, _, rfl, .inr (hws.digits c List.mem_cons_self)⟩
  printed := by
    refine Printed.append ?_ ((printed_digits hws.digits).append hprinted)
    cases negative <;> decide
  reads := fun rest hrest => by
    rw [List.append_assoc, List.append_assoc, readNumeral_whole negative hws (hends rest hrest)]
    exact hread rest hrest

/-- The numeral of a whole number. -/
def wholeNumeral (k : ℤ) : Numeral :=
  ⟨decide (k < 0), digitValues (Nat.toDigits 10 k.natAbs), [], 0, true⟩

/-- A whole number is spelled by its text. -/
theorem spells_integer (k : ℤ) : Spells (toString k).toList (wholeNumeral k) := by
  rw [toList_integer, ← List.append_nil (Nat.toDigits 10 k.natAbs)]
  refine spells_parts _ (whole_toDigits _) (fun c hc => (by cases hc))
    (fun rest hrest => hrest.endsDigits) (fun rest hrest => ?_)
  exact readBehind_end _ _ (readFraction_none fun h => (hrest '.' h).2.1 rfl) hrest

theorem signed_wholeNumeral (k : ℤ) : (wholeNumeral k).signed = k := by
  unfold Numeral.signed wholeNumeral
  simp only
  rw [ofDigits_toDigits]
  by_cases hk : k < 0
  · rw [decide_eq_true hk, if_pos rfl]
    omega
  · rw [decide_eq_false hk, if_neg (by decide)]
    omega

/-! ### The text of an amount -/

theorem endsDigits_cons {c : Char} (hc : c.isDigit = false) (cs : List Char) :
    EndsDigits (c :: cs) := by
  intro d hd
  rw [← Option.some.inj hd]
  exact hc

/-- A whole part, a point and more digits. -/
theorem spells_point (negative : Bool) {ws fs : List Char} (hws : Whole ws)
    (hfs : ∀ c ∈ fs, c.isDigit = true) (hne : fs ≠ []) :
    Spells (signChars negative ++ (ws ++ '.' :: fs))
      ⟨negative, digitValues ws, digitValues fs, 0, false⟩ := by
  refine spells_parts negative hws ?_ (fun rest _ => endsDigits_cons rfl _) (fun rest hrest => ?_)
  · exact (printed_digits hfs).cons (by decide)
  · refine (readBehind_end _ _ (readFraction_point hfs hne hrest.endsDigits) hrest).trans ?_
    have hsome : (digitValues fs).isEmpty = false := by
      obtain ⟨c, cs, rfl⟩ := List.exists_cons_of_ne_nil hne
      rfl
    rw [hsome]

/-- One digit, a point and more digits if there are more, and the exponent. -/
theorem spells_scientific (negative : Bool) {c : Char} {cs : List Char}
    (hdigits : ∀ d ∈ c :: cs, d.isDigit = true) (k : ℤ) :
    Spells (signChars negative ++ ([c] ++ ((if cs = [] then [] else '.' :: cs) ++
        'e' :: ((if 0 ≤ k then ['+'] else []) ++ (toString k).toList))))
      ⟨negative, digitValues [c], digitValues cs, k, false⟩ := by
  have hc : Whole [c] :=
    ⟨fun d hd => hdigits d (List.mem_cons.mpr (.inl (List.mem_singleton.mp hd))),
      List.cons_ne_nil _ _, .inl rfl⟩
  have hcs : ∀ d ∈ cs, d.isDigit = true := fun d hd => hdigits d (List.mem_cons_of_mem _ hd)
  have hk := spells_integer k
  have hexponent : ∀ rest, EndsNumeral rest →
      readExponent ((if 0 ≤ k then ['+'] else []) ++ (toString k).toList ++ rest) =
        some (k, rest) :=
    fun rest hrest => readExponent_integer k hrest.endsDigits
  have hsign : Printed (if 0 ≤ k then ['+'] else []) := by
    split <;> decide
  by_cases hnone : cs = []
  · rw [if_pos hnone, hnone]
    refine spells_parts negative hc ?_ (fun rest _ => endsDigits_cons rfl _) (fun rest hrest => ?_)
    · exact (hsign.append hk.printed).cons (by decide)
    · exact readBehind_exponent _ _ (readFraction_none (by simp)) (hexponent rest hrest)
  · rw [if_neg hnone]
    refine spells_parts negative hc ?_ (fun rest _ => endsDigits_cons rfl _) (fun rest hrest => ?_)
    · refine Printed.append ((printed_digits hcs).cons (by decide)) ?_
      exact (hsign.append hk.printed).cons (by decide)
    · have hfraction : readFraction ('.' :: (cs ++ 'e' :: ((if 0 ≤ k then ['+'] else []) ++
          (toString k).toList ++ rest))) = some (digitValues cs, 'e' ::
            ((if 0 ≤ k then ['+'] else []) ++ (toString k).toList ++ rest)) :=
        readFraction_point hcs hnone (endsDigits_cons rfl _)
      refine readBehind_exponent _ _ ?_ (hexponent rest hrest)
      rw [← hfraction]
      simp

/-- The value of a numeral whose digits are known. -/
theorem value_of_digits {n : Numeral} {cs : List Char}
    (hdigits : n.whole ++ n.fraction = digitValues cs) :
    n.decimal.value = Nat.ofDigitChars 10 cs 0 * 10 ^ (n.exponent - n.fraction.length) := by
  unfold Decimal.Scaled.value Decimal.Numeral.decimal
  simp only
  rw [hdigits, ofDigits_digitValues]

theorem digitValues_append (cs ds : List Char) :
    digitValues cs ++ digitValues ds = digitValues (cs ++ ds) :=
  List.map_append.symm

theorem isDigit_replicate (k : ℕ) : ∀ c ∈ List.replicate k '0', c.isDigit = true := by
  intro c hc
  rw [List.eq_of_mem_replicate hc]
  rfl

/-- A whole number of units, with a zero behind the point. -/
theorem spells_units (negative : Bool) {d : Scaled} (hd : d.digits = 0 → d.power = 0)
    (hpower : 0 ≤ d.power) :
    ∃ n, Spells (signChars negative ++ (d.positional true).toList) n ∧ n.negative = negative ∧
      n.decimal.value = d.value := by
  have hdigits : ∀ c ∈ Nat.toDigits 10 d.digits ++ List.replicate d.power.toNat '0',
      c.isDigit = true := by
    intro c hc
    rcases List.mem_append.mp hc with h | h
    · exact isDigit_toDigits _ c h
    · exact isDigit_replicate _ c h
  have hwhole : Whole (Nat.toDigits 10 d.digits ++ List.replicate d.power.toNat '0') := by
    refine ⟨hdigits, fun h => Nat.toDigits_ne_nil (List.append_eq_nil_iff.mp h).1, ?_⟩
    by_cases hzero : d.digits = 0
    · rw [hzero, hd hzero]
      exact .inl rfl
    · rw [List.head?_append_of_ne_nil _ Nat.toDigits_ne_nil]
      exact .inr (toDigits_head _ hzero)
  have htext : (d.positional true).toList =
      Nat.toDigits 10 d.digits ++ List.replicate d.power.toNat '0' ++ '.' :: ['0'] := by
    unfold Scaled.positional
    simp only [if_pos hpower, String.toList_append, toList_natural, String.toList_ofList]
    rfl
  have hspells := spells_point negative hwhole
    (List.forall_mem_singleton.mpr (rfl : '0'.isDigit = true)) (List.cons_ne_nil _ _)
  rw [← htext] at hspells
  refine ⟨_, hspells, rfl, ?_⟩
  have hspelled : Nat.ofDigitChars 10
      (Nat.toDigits 10 d.digits ++ List.replicate d.power.toNat '0' ++ ['0']) 0 =
        10 * (10 ^ d.power.toNat * d.digits) := by
    rw [Nat.ofDigitChars_append, Nat.ofDigitChars_append, Nat.ofDigitChars_ten_toDigits,
      Nat.ofDigitChars_replicate_zero]
    rfl
  have hshift : (10 : ℚ) ^ d.power = 10 ^ d.power.toNat := by
    rw [← zpow_natCast, Int.toNat_of_nonneg hpower]
  rw [value_of_digits (digitValues_append _ _), hspelled]
  unfold Scaled.value
  rw [hshift]
  show ((10 * (10 ^ d.power.toNat * d.digits) : ℕ) : ℚ) * 10 ^ (-1 : ℤ) = _
  push_cast
  rw [zpow_neg_one]
  field_simp

/-- Digits behind as many zeros as leave one digit or more ahead of so many places. -/
def padded (digits : List Char) (places : ℕ) : List Char :=
  List.replicate (places + 1 - digits.length) '0' ++ digits

theorem length_padded (digits : List Char) (places : ℕ) :
    (padded digits places).length = places + 1 - digits.length + digits.length := by
  unfold padded
  rw [List.length_append, List.length_replicate]

theorem isDigit_padded {digits : List Char} (h : ∀ c ∈ digits, c.isDigit = true) (places : ℕ) :
    ∀ c ∈ padded digits places, c.isDigit = true := by
  intro c hc
  rcases List.mem_append.mp hc with hzero | hdigit
  · exact isDigit_replicate _ c hzero
  · exact h c hdigit

theorem ofDigits_padded (n places : ℕ) :
    Nat.ofDigitChars 10 (padded (Nat.toDigits 10 n) places) 0 = n := by
  unfold padded
  rw [Nat.ofDigitChars_append, Nat.ofDigitChars_replicate_zero, Nat.mul_zero,
    Nat.ofDigitChars_ten_toDigits]

/-- Ahead of the places stands a whole number. -/
theorem whole_padded {n : ℕ} (hn : n ≠ 0) {places : ℕ} (hplaces : 0 < places) :
    let text := padded (Nat.toDigits 10 n) places
    Whole (text.take (text.length - places)) := by
  intro text
  have hlength : text.length = _ := length_padded (Nat.toDigits 10 n) places
  refine ⟨fun c hc => isDigit_padded (isDigit_toDigits n) places c (List.mem_of_mem_take hc),
    fun h => ?_, ?_⟩
  · have hzero := congrArg List.length h
    rw [List.length_take, List.length_nil] at hzero
    omega
  · by_cases hshort : (Nat.toDigits 10 n).length ≤ places
    · left
      rw [List.length_take]
      omega
    · right
      have htext : text = Nat.toDigits 10 n := by
        show List.replicate (places + 1 - (Nat.toDigits 10 n).length) '0' ++ _ = _
        rw [show places + 1 - (Nat.toDigits 10 n).length = 0 by omega]
        rfl
      rw [List.head?_take, if_neg (by omega), htext]
      exact toDigits_head _ hn

/-- Digits with the point among them, or behind a zero. -/
theorem spells_places (negative : Bool) {d : Scaled} (hd : d.digits = 0 → d.power = 0)
    (hpower : d.power < 0) :
    ∃ n, Spells (signChars negative ++ (d.positional true).toList) n ∧ n.negative = negative ∧
      n.decimal.value = d.value := by
  let places := (-d.power).toNat
  let text := padded (Nat.toDigits 10 d.digits) places
  have hplaces : 0 < places := by
    show 0 < (-d.power).toNat
    omega
  have hlength : text.length = _ := length_padded (Nat.toDigits 10 d.digits) places
  have hcount : (text.drop (text.length - places)).length = places := by
    rw [List.length_drop]
    omega
  have hfraction : text.drop (text.length - places) ≠ [] := fun h => by
    rw [h] at hcount
    exact hplaces.ne hcount
  have hrendered : (d.positional true).toList =
      text.take (text.length - places) ++ '.' :: text.drop (text.length - places) := by
    unfold Scaled.positional
    simp only [if_neg (not_le.mpr hpower), String.toList_append, toList_natural,
      String.toList_ofList, ← String.length_toList]
    rw [List.append_assoc]
    rfl
  have hspells := spells_point negative
    (whole_padded (fun hzero => by rw [hd hzero] at hpower; omega) hplaces)
    (fun c hc => isDigit_padded (isDigit_toDigits d.digits) places c (List.mem_of_mem_drop hc))
    hfraction
  rw [← hrendered] at hspells
  refine ⟨_, hspells, rfl, ?_⟩
  rw [value_of_digits (digitValues_append _ _), List.take_append_drop, ofDigits_padded]
  unfold Scaled.value digitValues
  rw [List.length_map, hcount]
  congr 2
  show 0 - (((-d.power).toNat : ℕ) : ℤ) = d.power
  omega

/-- The first digit, the others, and the power of the first. -/
theorem spells_leading (negative : Bool) (d : Scaled) :
    ∃ n, Spells (signChars negative ++ (d.scientific (d.power + d.width - 1) true).toList) n ∧
      n.negative = negative ∧ n.decimal.value = d.value := by
  obtain ⟨c, cs, hcons⟩ := List.exists_cons_of_ne_nil (Nat.toDigits_ne_nil (b := 10) (n := d.digits))
  have hdigits : ∀ e ∈ c :: cs, e.isDigit = true := by
    rw [← hcons]
    exact isDigit_toDigits _
  have hwidth : d.width = cs.length + 1 := by
    unfold Scaled.width
    rw [← String.length_toList, toList_natural, hcons, List.length_cons]
  have htext : (d.scientific (d.power + d.width - 1) true).toList =
      [c] ++ ((if cs = [] then [] else '.' :: cs) ++ 'e' ::
        ((if 0 ≤ d.power + d.width - 1 then ['+'] else []) ++
          (toString (d.power + d.width - 1)).toList)) := by
    have hplus : (if (true && decide (0 ≤ d.power + d.width - 1)) = true then "+" else "").toList =
        if 0 ≤ d.power + d.width - 1 then ['+'] else [] := by
      by_cases h : 0 ≤ d.power + d.width - 1
      · rw [if_pos h, if_pos (by simpa using h)]
        rfl
      · rw [if_neg h, if_neg (by simpa using h)]
        rfl
    unfold Scaled.scientific
    simp only [toList_natural, hcons, String.toList_append, hplus]
    cases cs with
    | nil => simp
    | cons e es => simp
  have hspells := spells_scientific negative hdigits (d.power + d.width - 1)
  rw [← htext] at hspells
  refine ⟨_, hspells, rfl, ?_⟩
  have hpower : d.power + d.width - 1 - (digitValues cs).length = d.power := by
    unfold digitValues
    rw [List.length_map, hwidth]
    omega
  rw [value_of_digits (digitValues_append _ _), List.singleton_append, ← hcons,
    Nat.ofDigitChars_ten_toDigits]
  show (d.digits : ℚ) * 10 ^ (d.power + d.width - 1 - (digitValues cs).length) = d.value
  rw [hpower]
  rfl

/-- **A decimal in the layout of amounts is spelled by its text.** -/
theorem spells_decimal (negative : Bool) {d : Scaled} (hd : d.digits = 0 → d.power = 0) :
    ∃ n, Spells (signChars negative ++ (d.render amounts).toList) n ∧ n.negative = negative ∧
      n.decimal.value = d.value := by
  unfold Scaled.render
  simp only
  split
  · rcases lt_or_ge d.power 0 with hneg | hpos
    · exact spells_places negative hd hneg
    · exact spells_units negative hd hpos
  · exact spells_leading negative d

end Json
end Brokerage
