/-
# What the holdings tell

A fill enters the rest that it leaves, or drops the position if the rest is flat. A rest that is
not flat is above the tolerance, whatever it was computed from (`FlatTest.above`). So over any
log of finite fills, booked or refused, an entry is more than the tolerance away from zero, and
the symbols with an entry are those with a position other than zero
(`Ledger.Told.contains_iff`). This is all that the value of a ledger needs: it cannot be told
if and only if such a symbol has no quote, in whatever order the entries are walked, and over
exact amounts the order has no part in the sum (`Ledger.value_walked`). The value as the ledger
tells it is one such walk (`Ledger.value_eq_valueAlong`).

The tests that positions are judged by are the same for doubles and for exact amounts as far as
this is concerned (`FlatTest`), so that one induction over the fills serves both.

Key definitions: `IsZero`, `FlatTest`, `Ledger.Told`, `Ledger.valueAlong`, `Ledger.Truthful`.
Key theorems: `Double.flatTest`, `flatTest_rational`, `Ledger.Told.adjusted`,
`Ledger.told_foldl_after`, `Ledger.addMarked_error_iff`, `Ledger.Told.truthful`, `Ledger.value_walked`,
`Ledger.holdings_truthful`.
-/
import Mathlib.Algebra.BigOperators.Finprod
import Brokerage.Proofs.Tolerance
import Brokerage.Proofs.Valuation

namespace Brokerage

/-! ### Zero -/

section

variable {α : Type} [Amount α]

/-- Neither above zero nor below it; of the doubles these are two. -/
def IsZero (a : α) : Prop :=
  a ≤ 0 ∧ 0 ≤ a

/-- What the test for flat quantities has to do so that an entry always means that something is
held. `Number` are the amounts that a position can be. -/
structure FlatTest (α : Type) [Amount α] (Number : α → Prop) : Prop where
  zero : Number 0
  add : ∀ {held change : α}, Number held → Amount.isFinite change = true → Number (held + change)
  neg : ∀ {change : α}, Amount.isFinite change = true → Amount.isFinite (-change) = true
  number_of_isZero : ∀ {a : α}, IsZero a → Number a
  /-- What is not flat is above the tolerance, whatever the scale. -/
  above : ∀ {rest scale : α}, Number rest → isFlat rest scale = false →
    Amount.tolerance < magnitude rest
  not_above : ∀ {a : α}, IsZero a → ¬ Amount.tolerance < magnitude a
  isZero_zero : IsZero (0 : α)
  isZero_neg : ∀ {a : α}, IsZero a → IsZero (-a)
  isZero_zero_add : ∀ {a : α}, IsZero a → IsZero (0 + a)

end

theorem isZero_rational {a : ℚ} : IsZero a ↔ a = 0 :=
  le_antisymm_iff.symm

/-- The test over exact amounts. -/
theorem flatTest_rational : FlatTest ℚ fun _ => True where
  zero := trivial
  add _ _ := trivial
  neg _ := rfl
  number_of_isZero _ := trivial
  above {rest scale} _ h := by
    have hrest : ¬ |rest| ≤ Amount.tolerance * max |scale| 1 := by
      rw [← Ledger.isFlat_iff_abs, h]
      exact Bool.false_ne_true
    have hscale : (Amount.tolerance : ℚ) ≤ Amount.tolerance * max |scale| 1 :=
      le_mul_of_one_le_right (by decide) (le_max_right _ _)
    rw [Ledger.magnitude_eq_abs]
    exact hscale.trans_lt (not_le.mp hrest)
  not_above {a} h := by
    rw [isZero_rational.mp h]
    decide
  isZero_zero := isZero_rational.mpr rfl
  isZero_neg h := isZero_rational.mpr (neg_eq_zero.mpr (isZero_rational.mp h))
  isZero_zero_add h := isZero_rational.mpr ((zero_add _).trans (isZero_rational.mp h))

namespace Double

variable {x y : Float}

theorem isZero_iff : IsZero x ↔ x.isFinite = true ∧ rational x = 0 := by
  have hbounds : IsZero x ↔ x ≤ 0 ∧ 0 ≤ x := Iff.rfl
  rw [hbounds]
  constructor
  · rintro ⟨hle, hge⟩
    rcases isNaN_eq_false_iff.mp (isNaN_of_zero_le hge) with hx | ⟨s, hinfinite⟩
    · rw [le_iff_rational hx rfl, rational_zero] at hle
      exact ⟨hx, le_antisymm hle (rational_nonneg hx hge)⟩
    · exact absurd hle ((hinfinite.positive_of_le hge).not_le rfl)
  · rintro ⟨hx, hzero⟩
    rw [le_iff_rational hx rfl, le_iff_rational rfl hx, rational_zero, hzero]
    exact ⟨le_rfl, le_rfl⟩

/-- **A rest that is not flat is above the tolerance,** be the scale finite or not. -/
theorem tolerance_lt_of_not_flat (hx : x.isNaN = false) (h : isFlat x y = false) :
    Amount.tolerance < magnitude x := by
  rcases isNaN_eq_false_iff.mp hx with hfinite | ⟨s, hinfinite⟩
  · by_contra hless
    have hmagnitude := isFinite_magnitude hfinite
    rw [lt_iff_rational rfl hmagnitude, not_lt] at hless
    have hflat : isFlat x y = true := by
      by_cases hone : 1 ≤ magnitude y
      · -- The scale is the larger amount, and its tolerance is not below that of one.
        have hnumber : y.isNaN = false :=
          Bool.eq_false_iff.mpr fun hnan => (scale_of_isNaN (x := x) hnan).2.1 hone
        rcases isNaN_eq_false_iff.mp hnumber with hy | ⟨t, hy⟩
        · have hscale := isFinite_magnitude hy
          have hmul := tolerance_mul_le rfl hscale ((le_iff_rational rfl hscale).mp hone)
          rw [tolerance_mul_one] at hmul
          exact (isFlat_iff x y).mpr (.inl ((le_iff_rational hmagnitude
            (isFinite_tolerance_mul hscale)).mpr (hless.trans hmul)))
        · exact isFlat_of_infinite_scale hx hy
      · exact (isFlat_iff x y).mpr (.inr ⟨hone, (le_iff_rational hmagnitude rfl).mpr hless⟩)
    rw [hflat] at h
    cases h
  · have hmagnitude : (magnitude x).toModel.unpack = .infinity .positive :=
      infinite_magnitude hinfinite
    rw [lt_iff_compare, tolerance_unpack, hmagnitude]
    rfl

/-- The test over doubles. A position may be infinite, but it is never undefined. -/
theorem flatTest : FlatTest Float fun x => x.isNaN = false where
  zero := rfl
  add := isNaN_add
  neg h := (rational_neg h).1
  number_of_isZero h := isNaN_of_zero_le h.2
  above := tolerance_lt_of_not_flat
  not_above {x} h := by
    obtain ⟨hx, hzero⟩ := isZero_iff.mp h
    rw [lt_iff_rational rfl (isFinite_magnitude hx), rational_magnitude hx, hzero, abs_zero]
    exact not_lt.mpr rational_tolerance_bounds.1.le
  isZero_zero := isZero_iff.mpr ⟨rfl, rational_zero⟩
  isZero_neg h := by
    obtain ⟨hx, hzero⟩ := isZero_iff.mp h
    obtain ⟨hfinite, hopposite⟩ := rational_neg hx
    exact isZero_iff.mpr ⟨hfinite, by rw [hopposite, hzero, neg_zero]⟩
  isZero_zero_add {x} h := by
    obtain ⟨hx, hzero⟩ := isZero_iff.mp h
    have hfinite : (0 + x).isFinite = true := by
      rw [isFinite_add_iff rfl hx, rational_zero, hzero, add_zero, abs_zero]
      exact overflow_pos
    have hrounds := rounds_add rfl hx hfinite
    rw [rational_zero, hzero, add_zero] at hrounds
    exact isZero_iff.mpr ⟨hfinite, hrounds.unique (.zero rfl rfl)⟩

end Double

namespace Ledger

variable {α : Type} [Amount α] {Number : α → Prop} {l m : Ledger α} {e : Execution α}

/-! ### Entries over a log of fills -/

/-- Every entry is above the tolerance. -/
structure Told (Number : α → Prop) (l : Ledger α) : Prop where
  number : ∀ {symbol quantity}, l.holdings.get? symbol = some quantity → Number quantity
  above : ∀ {symbol quantity}, l.holdings.get? symbol = some quantity →
    Amount.tolerance < magnitude quantity

/-- What a change leaves is entered if it is above the tolerance. -/
theorem Told.adjusted (t : FlatTest α Number) (h : l.Told Number) (symbol : Symbol) {change : α}
    (hchange : Amount.isFinite change = true) (cash : α) :
    Told Number ⟨cash, l.adjusted symbol change⟩ := by
  have hrest : Number (l.position symbol + change) :=
    t.add (position_of t.zero h.number symbol) hchange
  -- An entry is the rest of the change or was there before.
  have hcases : ∀ {other quantity}, (l.adjusted symbol change).get? other = some quantity →
      (quantity = l.position symbol + change ∧ Amount.tolerance < magnitude quantity) ∨
        l.holdings.get? other = some quantity := by
    intro other quantity hentry
    rw [get?_adjusted] at hentry
    split at hentry
    · split at hentry
      · cases hentry
      · rename_i hflat
        cases hentry
        exact .inl ⟨rfl, t.above hrest (Bool.eq_false_iff.mpr hflat)⟩
    · exact .inr hentry
  constructor
  · intro other quantity hentry
    rcases hcases hentry with ⟨rfl, -⟩ | hbefore
    · exact hrest
    · exact h.number hbefore
  · intro other quantity hentry
    rcases hcases hentry with ⟨-, habove⟩ | hbefore
    · exact habove
    · exact h.above hbefore

/-- **One fill keeps this,** booked or refused. -/
theorem Told.after (t : FlatTest α Number) (h : l.Told Number)
    (hquantity : Amount.isFinite e.quantity = true) : (l.after e).Told Number := by
  cases hb : l.apply e with
  | error cause => rwa [after_of_error hb]
  | ok m =>
    rw [after_of_ok hb]
    rcases apply_cases hb with ⟨-, cash, change, hchange, -, rfl⟩ | ⟨-, -, rfl⟩
    · refine h.adjusted t e.symbol ?_ cash
      rcases Execution.change_cases hchange with rfl | rfl
      · exact hquantity
      · exact t.neg hquantity
    · exact h

/-- **So does any log of fills,** upon a ledger of cash alone. -/
theorem told_foldl_after (t : FlatTest α Number) (cash : α) (fills : List (Execution α))
    (hfills : ∀ e ∈ fills, Amount.isFinite e.quantity = true) :
    (fills.foldl after (ofCash cash)).Told Number := by
  have hkept : ∀ l : Ledger α, l.Told Number → (fills.foldl Ledger.after l).Told Number := by
    induction fills with
    | nil => exact fun l h => h
    | cons e fills ih =>
      intro l h
      exact ih (fun e' he => hfills e' (List.mem_cons_of_mem _ he)) (l.after e)
        (h.after t (hfills e List.mem_cons_self))
  refine hkept (ofCash cash) ⟨?_, ?_⟩
  · intro symbol quantity hentry
    cases hentry
  · intro symbol quantity hentry
    cases hentry

/-- **A symbol is entered if and only if its position is not zero.** -/
theorem Told.contains_iff (t : FlatTest α Number) (h : l.Told Number) (symbol : Symbol) :
    l.holdings.contains symbol = true ↔ ¬ IsZero (l.position symbol) := by
  rw [Table.contains_iff]
  cases hentry : l.holdings.get? symbol with
  | none => simpa [position_of_none hentry] using t.isZero_zero
  | some quantity =>
    rw [position_of_some hentry]
    exact iff_of_true ⟨quantity, rfl⟩ fun hzero => t.not_above hzero (h.above hentry)

/-- A change that closes a position leaves no entry. -/
theorem contains_adjusted_of_isZero (t : FlatTest α Number) {symbol : Symbol} {change : α}
    (hzero : IsZero (l.position symbol + change)) :
    (l.adjusted symbol change).contains symbol = false := by
  rw [Table.contains_eq_false_iff, get?_adjusted, if_pos rfl]
  split
  · rfl
  · rename_i hflat
    exact absurd (t.above (t.number_of_isZero hzero) (Bool.eq_false_iff.mpr hflat))
      (t.not_above hzero)

/-! ### Walks over the entries -/

/-- A walk comes to a symbol without a quote if there is one among the entries. -/
theorem addMarked_error_iff {quotes : Quotes α} : ∀ {walk : List (Symbol × α)} {sum : α},
    (∃ symbol, addMarked quotes walk sum = .error symbol) ↔
      ∃ symbol ∈ walk.map (·.1), quotes.contains symbol = false
  | [], sum => by simp [addMarked]
  | (symbol, quantity) :: walk, sum => by
    rw [List.map_cons, List.exists_mem_cons_iff, addMarked, Table.contains_eq_false_iff]
    cases hquote : quotes.get? symbol with
    | none => simp
    | some quote =>
      simp only [reduceCtorEq, false_or]
      exact addMarked_error_iff

/-- And the symbol that it names is one of these. -/
theorem addMarked_error {quotes : Quotes α} {symbol : Symbol} :
    ∀ {walk : List (Symbol × α)} {sum : α}, addMarked quotes walk sum = .error symbol →
      symbol ∈ walk.map (·.1) ∧ quotes.contains symbol = false
  | [], sum, h => by cases h
  | (other, quantity) :: walk, sum, h => by
    rw [addMarked] at h
    cases hquote : quotes.get? other with
    | none =>
      simp only [hquote] at h
      cases h
      exact ⟨List.mem_cons_self, Table.contains_eq_false_iff.mpr hquote⟩
    | some quote =>
      simp only [hquote] at h
      obtain ⟨hmem, hnone⟩ := addMarked_error h
      exact ⟨List.mem_cons_of_mem _ hmem, hnone⟩

omit [Amount α] in
/-- A walk in any order comes to the symbols that have an entry. -/
theorem mem_walk_iff {walk : List (Symbol × α)} (hwalk : walk.Perm l.holdings.entries)
    (symbol : Symbol) : symbol ∈ walk.map (·.1) ↔ l.holdings.contains symbol = true := by
  rw [(hwalk.map (·.1)).mem_iff]
  constructor
  · intro hmem
    obtain ⟨entry, hentry, rfl⟩ := List.mem_map.mp hmem
    exact Table.lookup_isSome_of_mem hentry
  · intro hheld
    by_contra hfresh
    have hnone : l.holdings.get? symbol = none := Table.lookup_eq_none_of_not_mem hfresh
    rw [Table.contains_eq_false_iff.mpr hnone] at hheld
    cases hheld

/-! ### The value -/

/-- The value, summed over the entries in the order of a walk. -/
def valueAlong (l : Ledger α) (quotes : Quotes α) (walk : List (Symbol × α)) : Except Symbol α :=
  addMarked quotes walk l.cash

theorem value_eq_valueAlong (l : Ledger α) (quotes : Quotes α) :
    l.value quotes = l.valueAlong quotes l.holdings.entries := rfl

/-- The holdings tell what is held. -/
structure Truthful (l : Ledger α) : Prop where
  /-- A symbol has an entry if and only if its position is not zero. -/
  contains_iff : ∀ symbol, l.holdings.contains symbol = true ↔ ¬ IsZero (l.position symbol)
  /-- What is entered is above the tolerance. -/
  above : ∀ {symbol quantity}, l.holdings.get? symbol = some quantity →
    Amount.tolerance < magnitude quantity
  /-- A fill that closes a position leaves no entry. -/
  closed : ∀ {e m change}, l.apply e = .ok m → e.signedQuantity = some change →
    IsZero (l.position e.symbol + change) → m.holdings.contains e.symbol = false
  /-- Neither does a fill of nothing make one. -/
  idle : ∀ {e}, IsZero e.quantity → l.holdings.contains e.symbol = false →
    (l.after e).holdings.contains e.symbol = false
  /-- The value of the ledger is summed over the entries as they stand. -/
  walked : ∀ quotes, l.value quotes = l.valueAlong quotes l.holdings.entries
  /-- The value cannot be told if and only if a position that is not zero has no quote,
  whatever the order of the walk. -/
  stale_iff : ∀ {quotes walk}, walk.Perm l.holdings.entries →
    ((∃ symbol, l.valueAlong quotes walk = .error symbol) ↔
      ∃ symbol, ¬ IsZero (l.position symbol) ∧ quotes.contains symbol = false)
  /-- The symbol that is named then is one of these. -/
  named : ∀ {quotes walk symbol}, walk.Perm l.holdings.entries →
    l.valueAlong quotes walk = .error symbol →
      ¬ IsZero (l.position symbol) ∧ quotes.contains symbol = false

/-- Entries above the tolerance tell what is held. -/
theorem Told.truthful (t : FlatTest α Number) (h : l.Told Number) : l.Truthful where
  contains_iff := h.contains_iff t
  above := h.above
  closed {e m change} happly hchange hzero := by
    rcases apply_cases happly with ⟨-, cash, other, hother, -, rfl⟩ | ⟨-, hnone, -⟩
    · rw [hchange, Option.some.injEq] at hother
      subst hother
      exact contains_adjusted_of_isZero t hzero
    · rw [hchange] at hnone
      cases hnone
  idle {e} hquantity hheld := by
    cases hb : l.apply e with
    | error cause => rwa [after_of_error hb]
    | ok m =>
      rw [after_of_ok hb]
      rcases apply_cases hb with ⟨-, cash, change, hchange, -, rfl⟩ | ⟨-, -, rfl⟩
      · have hposition : l.position e.symbol = 0 :=
          position_of_none (Table.contains_eq_false_iff.mp hheld)
        have hzero : IsZero change := by
          rcases Execution.change_cases hchange with rfl | rfl
          · exact hquantity
          · exact t.isZero_neg hquantity
        refine contains_adjusted_of_isZero t ?_
        rw [hposition]
        exact t.isZero_zero_add hzero
      · exact hheld
  walked := l.value_eq_valueAlong
  stale_iff {quotes walk} hwalk := by
    simp only [valueAlong, addMarked_error_iff, mem_walk_iff hwalk, h.contains_iff t]
  named {quotes walk symbol} hwalk hstale := by
    obtain ⟨hmem, hnone⟩ := addMarked_error hstale
    exact ⟨(h.contains_iff t symbol).mp ((mem_walk_iff hwalk symbol).mp hmem), hnone⟩

/-- What a walk finds is worth is the positions at their bids, over all symbols. -/
theorem worth_walked {l : Ledger ℚ} {quotes : Quotes ℚ} {walk : List (Symbol × ℚ)}
    (hkeys : l.holdings.Distinct) (hwalk : walk.Perm l.holdings.entries) :
    worth quotes walk = ∑ᶠ symbol, l.position symbol * bidOf quotes symbol := by
  have hnodup : (walk.map (·.1)).Nodup := by
    rw [(hwalk.map (·.1)).nodup_iff]
    exact hkeys
  have hposition : ∀ entry ∈ walk, l.position entry.1 = entry.2 := by
    intro entry hentry
    exact position_of_some (Table.lookup_of_nodup hkeys (hwalk.mem_iff.mp hentry))
  have hlisted : ∀ {held : List (Symbol × ℚ)}, (∀ entry ∈ held, l.position entry.1 = entry.2) →
      worth quotes held =
        ((held.map (·.1)).map fun symbol => l.position symbol * bidOf quotes symbol).sum := by
    intro held hheld
    induction held with
    | nil => rfl
    | cons entry held ih =>
      rw [worth, ih fun other hother => hheld other (List.mem_cons_of_mem _ hother),
        List.map_cons, List.map_cons, List.sum_cons, hheld entry List.mem_cons_self]
  rw [hlisted hposition, ← List.sum_toFinset _ hnodup]
  refine (finsum_eq_sum_of_support_subset _ fun symbol hsupport => ?_).symm
  -- A symbol that the walk does not come to has no position.
  rw [List.coe_toFinset, Set.mem_ofPred_eq, mem_walk_iff hwalk]
  by_contra hheld
  refine hsupport ?_
  have hnone : l.position symbol = 0 :=
    position_of_none (Table.contains_eq_false_iff.mp (Bool.eq_false_iff.mpr hheld))
  exact (congrArg (· * bidOf quotes symbol) hnone).trans (zero_mul _)

/-- **The value is the cash and every position at its bid,** in whatever order it is summed. -/
theorem value_walked {l : Ledger ℚ} {quotes : Quotes ℚ} {walk : List (Symbol × ℚ)}
    (hkeys : l.holdings.Distinct) (hwalk : walk.Perm l.holdings.entries)
    (hquoted : l.Quoted quotes) : l.valueAlong quotes walk =
      .ok (l.cash + ∑ᶠ symbol, l.position symbol * bidOf quotes symbol) := by
  rw [← worth_walked hkeys hwalk]
  refine addMarked_eq (fun entry hentry => hquoted entry.1 ?_) l.cash
  exact (mem_walk_iff hwalk entry.1).mp (List.mem_map_of_mem hentry)

/-- **Holdings tell what is held, over any log of fills.** A ledger starts with cash alone, and
fills of finite quantities are booked or refused one after another. Then a symbol has an entry if
and only if its position is not zero, and every entry is above the tolerance, so that neither a
position that is closed nor a fill of nothing leaves one. The value of the ledger, which is summed
over the entries as they stand, cannot be told if and only if a position that is not zero has no
quote, and its symbol is named. Otherwise, over exact amounts, it is the cash and the sum of every
position at its bid, and it is the same in whatever order the entries are walked. -/
theorem holdings_truthful :
    (∀ (cash : Float) (fills : List (Execution Float)),
      (∀ e ∈ fills, e.quantity.isFinite = true) →
        (fills.foldl after (ofCash cash)).Truthful) ∧
    (∀ (cash : ℚ) (fills : List (Execution ℚ)) (l : Ledger ℚ),
      l = fills.foldl after (ofCash cash) →
        l.Truthful ∧ ∀ quotes,
          (∀ symbol, ¬ IsZero (l.position symbol) → quotes.contains symbol = true) →
            l.value quotes = .ok (l.cash + ∑ᶠ symbol, l.position symbol * bidOf quotes symbol) ∧
            ∀ walk, walk.Perm l.holdings.entries → l.valueAlong quotes walk = l.value quotes) := by
  constructor
  · intro cash fills hfinite
    exact (told_foldl_after Double.flatTest cash fills hfinite).truthful Double.flatTest
  · intro cash fills l hl
    have htold : l.Told fun _ => True :=
      hl ▸ told_foldl_after flatTest_rational cash fills fun _ _ => rfl
    have hkeys : l.holdings.Distinct := hl ▸ distinct_foldl_after cash fills
    have htruthful := htold.truthful flatTest_rational
    refine ⟨htruthful, fun quotes hquoted => ?_⟩
    have hwalked : ∀ walk : List (Symbol × ℚ), walk.Perm l.holdings.entries →
        l.valueAlong quotes walk =
          .ok (l.cash + ∑ᶠ symbol, l.position symbol * bidOf quotes symbol) :=
      fun walk hwalk => value_walked hkeys hwalk fun symbol hheld =>
        hquoted symbol ((htruthful.contains_iff symbol).mp hheld)
    have hvalue := (htruthful.walked quotes).trans (hwalked _ (List.Perm.refl _))
    exact ⟨hvalue, fun walk hwalk => (hwalked walk hwalk).trans hvalue.symm⟩

/-- Two lots of fractions, and a sell of their decimal total, which in doubles is not their
sum. -/
def sampleLots : List (Execution Float) :=
  [.bought sampleSymbol 1 0.1 101 ⟨1⟩, .bought sampleSymbol 2 0.2 102 ⟨2⟩,
    .sold sampleSymbol 3 0.3 103 ⟨3⟩]

/-- A long position, a buy that the cash does not cover, a short position, and a fill of
nothing. -/
def sampleBook : Ledger ℚ :=
  [.bought sampleSymbol 400 40 101 ⟨1⟩, .bought sampleSymbol 2000 200 101 ⟨2⟩,
    .sold ⟨"DEF"⟩ 55 5 102 ⟨3⟩, .bought ⟨"GHI"⟩ 0 0 103 ⟨4⟩].foldl after (ofCash 1000)

def sampleMarks : Quotes ℚ :=
  (sampleScenario.withQuote ⟨"DEF"⟩ 11 12).quotes

/-- The lots close out, the short position cannot be valued without its quote, and the value of
the two positions is the cash that there was at first. -/
theorem sample_holdings_truthful :
    (sampleLots.foldl after (ofCash 1000)).holdings.contains sampleSymbol = false ∧
    (¬ IsZero (sampleBook.position ⟨"DEF"⟩) ∧
      ∃ symbol, sampleBook.valueAlong sampleScenario.quotes
        sampleBook.holdings.entries.reverse = .error symbol) ∧
    sampleBook.value sampleMarks = .ok (sampleBook.cash +
      ∑ᶠ symbol, sampleBook.position symbol * bidOf sampleMarks symbol) ∧
    sampleBook.cash + ∑ᶠ symbol, sampleBook.position symbol * bidOf sampleMarks symbol = 1000 := by
  obtain ⟨hdoubles, hexact⟩ := holdings_truthful
  have hlots := hdoubles 1000 sampleLots (by decide +kernel)
  obtain ⟨hbook, hvalue⟩ := hexact 1000 _ sampleBook rfl
  have hwalk := sampleBook.holdings.entries.reverse_perm
  have hshort : ¬ IsZero (sampleBook.position ⟨"DEF"⟩) := by
    rw [isZero_rational]
    decide +kernel
  have hquoted : ∀ symbol, ¬ IsZero (sampleBook.position symbol) →
      sampleMarks.contains symbol = true := by
    intro symbol hheld
    have hmem : symbol ∈ sampleBook.holdings.entries.map (·.1) :=
      (mem_walk_iff (List.Perm.refl _) symbol).mpr ((hbook.contains_iff symbol).mpr hheld)
    have hkeys : sampleBook.holdings.entries.map (·.1) = [sampleSymbol, ⟨"DEF"⟩] := by
      decide +kernel
    rw [hkeys] at hmem
    rcases List.mem_pair.mp hmem with rfl | rfl
    · decide +kernel
    · decide +kernel
  refine ⟨?_, ⟨hshort, (hbook.stale_iff hwalk).mpr ⟨⟨"DEF"⟩, hshort, by decide +kernel⟩⟩, ?_, ?_⟩
  · have hzero : IsZero ((sampleLots.foldl after (ofCash 1000)).position sampleSymbol) :=
      ⟨by decide +kernel, by decide +kernel⟩
    exact Bool.eq_false_iff.mpr fun hheld => (hlots.contains_iff sampleSymbol).mp hheld hzero
  · exact (hvalue sampleMarks hquoted).1
  · obtain ⟨htold, hwalked⟩ := hvalue sampleMarks hquoted
    have hsum : sampleBook.valueAlong sampleMarks sampleBook.holdings.entries.reverse =
        .ok 1000 := by
      decide +kernel
    exact Except.ok.inj (htold.symm.trans ((hwalked _ hwalk).symm.trans hsum))

end Ledger

end Brokerage
