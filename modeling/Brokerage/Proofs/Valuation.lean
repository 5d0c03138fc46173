/-
# What a fill does to the value of a ledger

The value of a ledger is its cash and the worth of its positions, each at its bid. Over exact
amounts a fill trades one for the other: the value changes by what the traded quantity is worth
at the bid beyond what was paid for it (`Execution.gain`), whatever the position was before. Only
where the fill leaves a flat rest, and the position is dropped, the worth of that rest is lost,
and the rest is within the tolerance of the larger of one, the old position and the quantity
(`Ledger.fill_keeps_value`).

Key definitions: `Ledger.after`, `Ledger.Quoted`, `Ledger.worth`, `Ledger.residual`,
`Execution.gain`.
Key theorems: `Ledger.value_eq`, `Ledger.worth_put`, `Ledger.worth_filter`,
`Ledger.isFlat_iff_abs`, `Ledger.worth_adjusted`, `Ledger.distinct_after`,
`Ledger.fill_keeps_value`.
-/
import Mathlib.Tactic.Linarith
import Mathlib.Tactic.Ring
import Mathlib.Algebra.Order.Field.Rat
import Brokerage.Proofs.Exact
import Brokerage.Proofs.Item
import Brokerage.Proofs.Position
import Brokerage.Proofs.Table

namespace Brokerage

/-! ### Refused or booked -/

/-- What a ledger is after an execution: a fill that is refused leaves it as it is. -/
def Ledger.after {α : Type} [Amount α] (l : Ledger α) (e : Execution α) : Ledger α :=
  match l.apply e with
  | .ok m => m
  | .error _ => l

namespace Ledger

section

variable {α : Type} [Amount α] {l m : Ledger α} {e : Execution α}

theorem after_of_ok (h : l.apply e = .ok m) : l.after e = m := by
  unfold after
  rw [h]

theorem after_of_error {cause : Insolvency α} (h : l.apply e = .error cause) : l.after e = l := by
  unfold after
  rw [h]

/-- No symbol is entered twice, whatever is booked. -/
theorem distinct_after (h : l.holdings.Distinct) : (l.after e).holdings.Distinct := by
  cases hb : l.apply e with
  | error cause => rwa [after_of_error hb]
  | ok m =>
    rw [after_of_ok hb]
    rcases apply_cases hb with ⟨-, cash, change, -, -, rfl⟩ | ⟨-, -, rfl⟩
    · exact distinct_adjusted h e.symbol change
    · exact h

/-- So no symbol is entered twice in a ledger that held cash alone at first. -/
theorem distinct_foldl_after (cash : α) (es : List (Execution α)) :
    (es.foldl after (ofCash cash)).holdings.Distinct := by
  have hkept : ∀ l : Ledger α, l.holdings.Distinct → (es.foldl after l).holdings.Distinct := by
    induction es with
    | nil => exact fun l h => h
    | cons e es ih => exact fun l h => ih (l.after e) (distinct_after h)
  exact hkept (ofCash cash) Table.distinct_empty

end

/-! ### Value -/

variable {quotes : Quotes ℚ} {l m : Ledger ℚ} {e : Execution ℚ}

/-- Every symbol that is held has a quote. -/
def Quoted (l : Ledger ℚ) (quotes : Quotes ℚ) : Prop :=
  ∀ symbol, l.holdings.contains symbol = true → quotes.contains symbol = true

/-- The bid of a symbol, zero if it has no quote. -/
def bidOf (quotes : Quotes ℚ) (symbol : Symbol) : ℚ :=
  ((quotes.get? symbol).map (·.bid)).getD 0

/-- What entries are worth, each at its bid. -/
def worth (quotes : Quotes ℚ) : List (Symbol × ℚ) → ℚ
  | [] => 0
  | (symbol, quantity) :: held => quantity * bidOf quotes symbol + worth quotes held

theorem addMarked_eq : ∀ {held : List (Symbol × ℚ)},
    (∀ entry ∈ held, quotes.contains entry.1 = true) → ∀ sum : ℚ,
      addMarked quotes held sum = .ok (sum + worth quotes held)
  | [], _, sum => congrArg Except.ok (add_zero sum).symm
  | (symbol, quantity) :: held, h, sum => by
    obtain ⟨quote, hquote⟩ := Option.isSome_iff_exists.mp (h _ List.mem_cons_self)
    replace hquote : quotes.get? symbol = some quote := hquote
    have hbid : bidOf quotes symbol = quote.bid := by
      unfold bidOf
      rw [hquote]
      rfl
    have hrest := addMarked_eq (fun entry he => h entry (List.mem_cons_of_mem _ he))
      (sum + quantity * quote.bid)
    have hsum : sum + quantity * quote.bid + worth quotes held =
        sum + worth quotes ((symbol, quantity) :: held) := by
      rw [worth, hbid, add_assoc]
    rw [addMarked, hquote]
    exact hrest.trans (congrArg Except.ok hsum)

/-- **The value of a quoted ledger** is its cash and what it holds, at the bids. -/
theorem value_eq (h : l.Quoted quotes) :
    l.value quotes = .ok (l.cash + worth quotes l.holdings.entries) :=
  addMarked_eq (fun _ he => h _ (Table.lookup_isSome_of_mem he)) l.cash

theorem worth_put (key : Symbol) (b : ℚ) : ∀ held : List (Symbol × ℚ),
    worth quotes (Table.put key b held) =
      worth quotes held + (b - (Table.lookup key held).getD 0) * bidOf quotes key
  | [] => by
    simp [Table.put, Table.lookup, worth]
  | (symbol, quantity) :: held => by
    by_cases hs : symbol = key
    · subst hs
      simp only [Table.put, Table.lookup, worth, if_true, Option.getD_some]
      ring
    · simp only [Table.put, Table.lookup, worth, hs, if_false, worth_put key b held]
      ring

theorem worth_filter (key : Symbol) : ∀ {held : List (Symbol × ℚ)}, (held.map (·.1)).Nodup →
    worth quotes (held.filter fun entry => entry.1 ≠ key) =
      worth quotes held - (Table.lookup key held).getD 0 * bidOf quotes key
  | [], _ => by
    simp [Table.lookup, worth]
  | (symbol, quantity) :: held, h => by
    obtain ⟨hfresh, hrest⟩ := List.nodup_cons.mp h
    have ih := worth_filter key hrest
    by_cases hs : symbol = key
    · subst hs
      have hnone : Table.lookup symbol held = none := Table.lookup_eq_none_of_not_mem hfresh
      rw [hnone] at ih
      rw [List.filter_cons_of_neg (by simp), ih]
      simp only [Table.lookup, worth, if_true, Option.getD_some, Option.getD_none]
      ring
    · rw [List.filter_cons_of_pos (by simpa using hs)]
      simp only [Table.lookup, worth, hs, if_false, ih]
      ring

/-! ### Flat rests -/

theorem magnitude_eq_abs (a : ℚ) : magnitude a = |a| := by
  by_cases h : a < 0
  · exact (if_pos h).trans (abs_of_neg h).symm
  · exact (if_neg h).trans (abs_of_nonneg (not_lt.mp h)).symm

theorem larger_eq_max (a b : ℚ) : larger a b = max a b := by
  by_cases h : a ≤ b
  · exact (if_pos h).trans (max_eq_right h).symm
  · have hba : b ≤ a := (not_le.mp h).le
    exact ((if_neg h).trans (if_pos hba)).trans (max_eq_left hba).symm

/-- A rest is flat if it is within the tolerance of its scale, or of one. -/
theorem isFlat_iff_abs (rest scale : ℚ) :
    isFlat rest scale = true ↔ |rest| ≤ Amount.tolerance * max |scale| 1 := by
  unfold isFlat
  rw [decide_eq_true_iff, magnitude_eq_abs, magnitude_eq_abs, larger_eq_max]

/-- A flat position is dropped, any other is entered. -/
theorem adjusted_entries (l : Ledger ℚ) (symbol : Symbol) (change : ℚ) :
    (l.adjusted symbol change = l.holdings.erase symbol ∧
      |l.position symbol + change| ≤
        Amount.tolerance * max 1 (max |l.position symbol| |change|)) ∨
    l.adjusted symbol change = l.holdings.insert symbol (l.position symbol + change) := by
  have hscale : max |larger (magnitude (l.position symbol)) (magnitude change)| 1 =
      max 1 (max |l.position symbol| |change|) := by
    rw [larger_eq_max, magnitude_eq_abs, magnitude_eq_abs, max_comm,
      abs_of_nonneg (le_max_of_le_left (abs_nonneg _))]
  unfold adjusted
  simp only
  split
  · rename_i hflat
    rw [isFlat_iff_abs, hscale] at hflat
    exact .inl ⟨rfl, hflat⟩
  · exact .inr rfl

/-- The rest that goes with a position when a change drops it. -/
def dropped (l : Ledger ℚ) (symbol : Symbol) (change : ℚ) : ℚ :=
  if (l.adjusted symbol change).contains symbol then 0 else l.position symbol + change

/-- The rest is within the tolerance. -/
theorem abs_dropped_le (l : Ledger ℚ) (symbol : Symbol) (change : ℚ) :
    |l.dropped symbol change| ≤
      Amount.tolerance * max 1 (max |l.position symbol| |change|) := by
  have hbound : (0 : ℚ) ≤ Amount.tolerance * max 1 (max |l.position symbol| |change|) :=
    mul_nonneg (by decide) (le_max_of_le_left zero_le_one)
  unfold dropped
  rcases l.adjusted_entries symbol change with ⟨h, hflat⟩ | h
  · split
    · rwa [abs_zero]
    · exact hflat
  · rw [if_pos, abs_zero]
    · exact hbound
    · unfold Table.contains
      rw [h, Table.get?_insert, if_pos rfl]
      rfl

/-- **What a change is worth**: the quantity at the bid, less the rest that is dropped. -/
theorem worth_adjusted (hkeys : l.holdings.Distinct) (symbol : Symbol) (change : ℚ) :
    worth quotes (l.adjusted symbol change).entries = worth quotes l.holdings.entries +
      (change - l.dropped symbol change) * bidOf quotes symbol := by
  have hheld : (Table.lookup symbol l.holdings.entries).getD 0 = l.position symbol := rfl
  unfold dropped Table.contains
  rcases l.adjusted_entries symbol change with ⟨h, -⟩ | h
  · have hworth : worth quotes (l.holdings.erase symbol).entries = _ := worth_filter symbol hkeys
    rw [h, hworth, hheld, Table.get?_erase, if_pos rfl]
    simp only [Option.isSome_none, Bool.false_eq_true, if_false]
    ring
  · have hworth : worth quotes (l.holdings.insert symbol (l.position symbol + change)).entries = _ :=
      worth_put symbol _ _
    rw [h, hworth, hheld, Table.get?_insert, if_pos rfl]
    simp only [Option.isSome_some, if_true]
    ring

end Ledger

/-! ### Fills -/

/-- What an execution adds to the value of a ledger at a bid: the quantity traded against what
was paid for it. -/
def Execution.gain (e : Execution ℚ) (bid : ℚ) : ℚ :=
  match e.kind with
  | .buy => e.quantity * bid - e.value
  | .sell => e.value - e.quantity * bid
  | .cancel | .modify => 0

namespace Ledger

variable {quotes : Quotes ℚ} {l m : Ledger ℚ} {e : Execution ℚ}

/-- A fill that is booked moves cash and one position against each other. -/
theorem booked (h : l.apply e = .ok m) : (e.signedQuantity = none ∧ m = l) ∨
    ∃ cash change, e.signedQuantity = some change ∧ m = ⟨cash, l.adjusted e.symbol change⟩ ∧
      ∀ bid, cash + change * bid = l.cash + e.gain bid := by
  unfold apply at h
  unfold Execution.signedQuantity Execution.gain
  cases hk : e.kind with
  | buy =>
    simp only [hk] at h
    refine .inr ⟨_, _, rfl, (settle_ok h).2, fun bid => ?_⟩
    show l.cash - e.value + e.quantity * bid = l.cash + (e.quantity * bid - e.value)
    ring
  | sell =>
    simp only [hk] at h
    refine .inr ⟨_, _, rfl, (settle_ok h).2, fun bid => ?_⟩
    show l.cash + e.value + -e.quantity * bid = l.cash + (e.value - e.quantity * bid)
    ring
  | cancel | modify =>
    simp only [hk] at h
    exact .inl ⟨rfl, (Except.ok.inj h).symm⟩

/-- Of amounts that are not below zero, only a buy above the cash is refused. -/
theorem refused_iff (hcash : 0 ≤ l.cash) (hvalue : 0 ≤ e.value) :
    (∃ cause, l.apply e = .error cause) ↔ e.kind = .buy ∧ l.cash < e.value := by
  unfold apply
  cases hk : e.kind with
  | buy =>
    simp only [settle_error_iff, true_and]
    exact sub_neg
  | sell =>
    simp only [settle_error_iff, reduceCtorEq, false_and, iff_false]
    exact not_lt.mpr (add_nonneg hcash hvalue)
  | cancel | modify => simp

theorem get?_after_other {symbol : Symbol} (hother : symbol ≠ e.symbol) :
    (l.after e).holdings.get? symbol = l.holdings.get? symbol := by
  cases h : l.apply e with
  | error cause => rw [after_of_error h]
  | ok m =>
    rw [after_of_ok h]
    rcases booked h with ⟨-, rfl⟩ | ⟨cash, change, -, rfl, -⟩
    · rfl
    · exact get?_adjusted_of_ne l change hother

/-- A ledger that is quoted with the symbol of an execution remains so. -/
theorem Quoted.after (h : l.Quoted quotes) (hquote : quotes.contains e.symbol = true) :
    (l.after e).Quoted quotes := by
  intro symbol hheld
  by_cases hs : symbol = e.symbol
  · rw [hs]
    exact hquote
  · unfold Table.contains at hheld
    rw [get?_after_other hs] at hheld
    exact h symbol hheld

/-- The rest that an execution drops with the position in its symbol. -/
def residual (l : Ledger ℚ) (e : Execution ℚ) : ℚ :=
  match e.signedQuantity with
  | some change => l.dropped e.symbol change
  | none => 0

theorem abs_residual_le (l : Ledger ℚ) (hquantity : 0 ≤ e.quantity) : |l.residual e| ≤
    Amount.tolerance * max 1 (max |l.position e.symbol| e.quantity) := by
  have hchange : ∀ change, e.signedQuantity = some change → |change| = e.quantity := by
    intro change h
    rcases Execution.change_cases h with rfl | rfl
    · exact abs_of_nonneg hquantity
    · exact (abs_neg e.quantity).trans (abs_of_nonneg hquantity)
  unfold residual
  cases hq : e.signedQuantity with
  | some change =>
    rw [← hchange change hq]
    exact l.abs_dropped_le e.symbol change
  | none =>
    rw [abs_zero]
    exact mul_nonneg (by decide) (le_max_of_le_left zero_le_one)

/-- **The value after a fill that is booked**, at any prices that quote it. -/
theorem value_after (hkeys : l.holdings.Distinct) (h : l.apply e = .ok m) (hl : l.Quoted quotes)
    {quote : Quote ℚ} (hquote : quotes.get? e.symbol = some quote) :
    ∃ before after, l.value quotes = .ok before ∧ m.value quotes = .ok after ∧
      after - before = e.gain quote.bid - l.residual e * quote.bid := by
  have hbid : bidOf quotes e.symbol = quote.bid := by
    unfold bidOf
    rw [hquote]
    rfl
  have hm : m.Quoted quotes := by
    rw [← after_of_ok h]
    exact hl.after (Option.isSome_iff_exists.mpr ⟨quote, hquote⟩)
  refine ⟨_, _, value_eq hl, value_eq hm, ?_⟩
  unfold residual
  rcases booked h with ⟨hnone, rfl⟩ | ⟨cash, change, hchange, rfl, hmoved⟩
  · have hgain : e.gain quote.bid = 0 := by
      unfold Execution.signedQuantity at hnone
      unfold Execution.gain
      cases hk : e.kind <;> simp_all
    rw [hnone, hgain]
    ring
  · have hworth : worth quotes (l.adjusted e.symbol change).entries = _ :=
      worth_adjusted hkeys e.symbol change
    rw [hbid] at hworth
    simp only [hchange, hworth]
    linarith [hmoved quote.bid]

/-- **A fill neither makes nor destroys value.** It is refused if and only if it is a buy for more
than the cash, and then changes nothing, as a confirmation of a cancel or modify changes nothing;
otherwise it changes the cash and the entry of its symbol alone. The value at any prices that
quote what is held and the symbol changes by what was traded at the bid against what was paid,
less the worth of a rest that is dropped with the position, and this rest is within the
tolerance. -/
theorem fill_keeps_value (hcash : 0 ≤ l.cash) (hvalue : 0 ≤ e.value) (hquantity : 0 ≤ e.quantity)
    (hkeys : l.holdings.Distinct) :
    ((∃ cause, l.apply e = .error cause) ↔ e.kind = .buy ∧ l.cash < e.value) ∧
    ((∃ cause, l.apply e = .error cause) → l.after e = l) ∧
    (e.kind.isFill = false → l.after e = l) ∧
    (∀ symbol, symbol ≠ e.symbol →
      (l.after e).holdings.get? symbol = l.holdings.get? symbol) ∧
    (∀ m, l.apply e = .ok m → ∀ quotes quote, l.Quoted quotes →
      quotes.get? e.symbol = some quote →
        ∃ before after, l.value quotes = .ok before ∧ m.value quotes = .ok after ∧
          after - before = e.gain quote.bid - l.residual e * quote.bid) ∧
    |l.residual e| ≤ Amount.tolerance * max 1 (max |l.position e.symbol| e.quantity) := by
  refine ⟨refused_iff hcash hvalue, ?_, ?_, ?_, ?_, l.abs_residual_le hquantity⟩
  · rintro ⟨cause, h⟩
    exact after_of_error h
  · intro hidle
    exact after_of_ok (apply_of_not_fill l hidle)
  · intro symbol hother
    exact get?_after_other hother
  · intro m h quotes quote hl hquote
    exact value_after hkeys h hl hquote

/-- Cash, and forty of one symbol. -/
def sampleHolding : Ledger ℚ :=
  ⟨1000, (∅ : Table Symbol ℚ).insert sampleSymbol 40⟩

/-- A sell of all that is held and a little more. -/
def sampleOversold : Execution ℚ :=
  .sold sampleSymbol 400 (40 + 1 / 10 ^ 8) 101 ⟨1⟩

theorem sampleHolding_quoted : sampleHolding.Quoted sampleScenario.quotes := by
  intro symbol hheld
  have hget := Table.get?_insert (∅ : Table Symbol ℚ) sampleSymbol symbol 40
  by_cases hs : sampleSymbol = symbol
  · subst hs
    decide +kernel
  · rw [if_neg hs] at hget
    unfold Table.contains at hheld
    rw [show sampleHolding.holdings.get? symbol = none from hget] at hheld
    cases hheld

/-- The short rest is dropped, and with it what it would have cost: the value stays as it was,
though more was sold than the fill paid for at the bid. -/
theorem sample_fill_keeps_value : ∃ m before after, sampleHolding.apply sampleOversold = .ok m ∧
    sampleHolding.value sampleScenario.quotes = .ok before ∧
    m.value sampleScenario.quotes = .ok after ∧ after - before = 0 ∧
    sampleOversold.gain 10 = -1 / 10 ^ 7 ∧ sampleHolding.residual sampleOversold = -1 / 10 ^ 8 := by
  obtain ⟨hrefused, -, -, -, hvalue, -⟩ := fill_keeps_value (l := sampleHolding)
    (e := sampleOversold) (by decide +kernel) (by decide +kernel) (by decide +kernel)
    (Table.distinct_empty.insert _ _)
  cases hbooked : sampleHolding.apply sampleOversold with
  | error cause => exact absurd (hrefused.mp ⟨cause, hbooked⟩) (by decide +kernel)
  | ok m =>
    obtain ⟨before, after, hbefore, hafter, hdifference⟩ :=
      hvalue m hbooked sampleScenario.quotes ⟨10, 11, 0, 0, 100⟩ sampleHolding_quoted rfl
    refine ⟨m, before, after, rfl, hbefore, hafter, ?_, by decide +kernel, by decide +kernel⟩
    rw [hdifference]
    decide +kernel

end Ledger

end Brokerage
