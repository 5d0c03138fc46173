/-
# Exact accounts

An account that is kept in doubles is exact as long as all amounts are whole numbers that
are not too large (`Moderate`): the cash is the initial cash less what was paid and plus
what was received, a position is what was bought less what was sold, and it has an entry
unless the two are equal (`Ledger.Exact`). One fill keeps an account exact
(`Ledger.Exact.apply`), and so does a whole log (`Ledger.exact_replay`). That no fill in
the log is below zero is what the check of a reply is for (`Broker.Sound`).

Key definitions: `total`, `bought`, `sold`, `balance`, `Moderate`, `Ledger.Exact`,
`Broker.Sound`.
Key theorems: `Ledger.Exact.apply`, `Ledger.exact_replay`, `Broker.sound_operated`,
`Broker.whole_accounts`.
-/
import Mathlib.Data.List.Induction
import Brokerage.Proofs.Discipline
import Brokerage.Proofs.Reply
import Brokerage.Proofs.TradeLog
import Brokerage.Proofs.Whole

namespace Brokerage

open Double

/-- What the executions of one kind come to. -/
def total (kind : ExecutionKind) (amount : Execution Float → Float)
    (log : List (Execution Float)) : ℤ :=
  ((log.filter fun e => decide (e.kind = kind)).map fun e => whole (amount e)).sum

/-- The quantity of a symbol that was bought. -/
def bought (symbol : Symbol) (log : List (Execution Float)) : ℤ :=
  total .buy (·.quantity) (fillsIn symbol log)

/-- The quantity of a symbol that was sold. -/
def sold (symbol : Symbol) (log : List (Execution Float)) : ℤ :=
  total .sell (·.quantity) (fillsIn symbol log)

/-- The cash less what was paid and plus what was received. -/
def balance (cash : Float) (log : List (Execution Float)) : ℤ :=
  whole cash - total .buy (·.value) log + total .sell (·.value) log

/-- What an execution takes from the cash. -/
def Execution.paid (e : Execution Float) : ℤ :=
  match e.kind with
  | .buy => whole e.value
  | .sell => -whole e.value
  | .cancel | .modify => 0

/-- What an execution adds to the position in its symbol. -/
def Execution.gained (e : Execution Float) : ℤ :=
  match e.kind with
  | .buy => whole e.quantity
  | .sell => -whole e.quantity
  | .cancel | .modify => 0

/-- The cash and all fills of a log are whole numbers, the sums of money stay below 2 ^ 53
and the quantities of each symbol come to less than 10 ^ 9. -/
structure Moderate (cash : Float) (log : List (Execution Float)) : Prop where
  start : (whole? cash).isSome = true
  fills : ∀ e ∈ log, e.kind.isFill = true →
    (whole? e.value).isSome = true ∧ (whole? e.quantity).isSome = true ∧ whole e.value < 2 ^ 53
  money : ∀ front, front <+: log → balance cash front < 2 ^ 53
  volume : ∀ symbol, bought symbol log + sold symbol log < 10 ^ 9

/-! ### Sums over a log -/

section

variable {kind : ExecutionKind} {amount : Execution Float → Float} {symbol : Symbol}
  {cash : Float} {log : List (Execution Float)} {e : Execution Float}

theorem total_append (kind : ExecutionKind) (amount : Execution Float → Float)
    (log more : List (Execution Float)) :
    total kind amount (log ++ more) = total kind amount log + total kind amount more := by
  unfold total
  rw [List.filter_append, List.map_append, List.sum_append]

theorem fillsIn_append (symbol : Symbol) (log more : List (Execution Float)) :
    fillsIn symbol (log ++ more) = fillsIn symbol log ++ fillsIn symbol more :=
  List.filter_append _ _

theorem bought_append (symbol : Symbol) (log more : List (Execution Float)) :
    bought symbol (log ++ more) = bought symbol log + bought symbol more := by
  unfold bought
  rw [fillsIn_append, total_append]

theorem sold_append (symbol : Symbol) (log more : List (Execution Float)) :
    sold symbol (log ++ more) = sold symbol log + sold symbol more := by
  unfold sold
  rw [fillsIn_append, total_append]

theorem balance_snoc (cash : Float) (log : List (Execution Float)) (e : Execution Float) :
    balance cash (log ++ [e]) = balance cash log - e.paid := by
  have hpaid : total .buy (·.value) [e] - total .sell (·.value) [e] = e.paid := by
    unfold Execution.paid
    cases hkind : e.kind <;> simp [total, hkind]
  unfold balance
  rw [total_append, total_append, ← hpaid]
  ring

theorem gained_eq (symbol : Symbol) (e : Execution Float) :
    bought symbol [e] - sold symbol [e] = if e.symbol = symbol then e.gained else 0 := by
  unfold bought sold fillsIn Execution.gained
  cases hkind : e.kind <;> by_cases hs : e.symbol = symbol <;>
    simp [total, hkind, hs, ExecutionKind.isFill]

theorem net_snoc (symbol : Symbol) (log : List (Execution Float)) (e : Execution Float) :
    bought symbol (log ++ [e]) - sold symbol (log ++ [e]) =
      bought symbol log - sold symbol log + if e.symbol = symbol then e.gained else 0 := by
  rw [bought_append, sold_append, ← gained_eq]
  ring

theorem total_not_neg (h : ∀ e ∈ log, e.kind = kind → 0 ≤ whole (amount e)) :
    0 ≤ total kind amount log := by
  refine List.sum_nonneg fun q hq => ?_
  obtain ⟨e, he, rfl⟩ := List.mem_map.mp hq
  obtain ⟨hmem, hkind⟩ := List.mem_filter.mp he
  exact h e hmem (of_decide_eq_true hkind)

/-- A whole amount that is not below zero. -/
theorem whole_not_neg {x : Float} (h : ¬ x < 0) : 0 ≤ whole x := by
  unfold whole
  cases hx : whole? x with
  | none => exact le_refl _
  | some n => exact not_lt.mp (mt (lt_whole hx whole?_zero).mpr h)

/-- A fill that was let through is not below zero. -/
theorem Execution.not_neg_of_sound (hfill : e.kind.isFill = true) (hsound : ¬ e.Unsound) :
    0 ≤ whole e.quantity ∧ 0 ≤ whole e.value :=
  ⟨whole_not_neg fun h => hsound (.inr (.inr ⟨hfill, .inl h⟩)),
    whole_not_neg fun h => hsound (.inr (.inr ⟨hfill, .inr h⟩))⟩

theorem bought_not_neg (hsound : ∀ e ∈ log, ¬ e.Unsound) : 0 ≤ bought symbol log :=
  total_not_neg fun e he hkind =>
    (Execution.not_neg_of_sound (by rw [hkind]; rfl) (hsound e (List.mem_filter.mp he).1)).1

theorem sold_not_neg (hsound : ∀ e ∈ log, ¬ e.Unsound) : 0 ≤ sold symbol log :=
  total_not_neg fun e he hkind =>
    (Execution.not_neg_of_sound (by rw [hkind]; rfl) (hsound e (List.mem_filter.mp he).1)).1

/-- What holds of a log holds of the log before its last execution. -/
theorem Moderate.init (h : Moderate cash (log ++ [e])) (hsound : ¬ e.Unsound) :
    Moderate cash log where
  start := h.start
  fills := fun e' he' => h.fills e' (List.mem_append_left _ he')
  money := fun front hfront => h.money front (hfront.trans (List.prefix_append _ _))
  volume := fun symbol => by
    have hvolume := h.volume symbol
    have hlast : ∀ e' ∈ [e], ¬ e'.Unsound := fun e' he' => by rwa [List.mem_singleton.mp he']
    have hbought : 0 ≤ bought symbol [e] := bought_not_neg hlast
    have hsold : 0 ≤ sold symbol [e] := sold_not_neg hlast
    rw [bought_append, sold_append] at hvolume
    linarith

/-- The amounts of the last fill, as whole numbers. -/
theorem Moderate.fill_last (h : Moderate cash (log ++ [e])) (hsound : ¬ e.Unsound)
    (hkind : e.kind.isFill = true) : whole? e.value = some (whole e.value) ∧
      whole? e.quantity = some (whole e.quantity) ∧ 0 ≤ whole e.value ∧ whole e.value < 2 ^ 53 := by
  have hlast : e ∈ log ++ [e] := List.mem_append_right _ (List.mem_singleton.mpr rfl)
  obtain ⟨hvalue, hquantity, hlt⟩ := h.fills e hlast hkind
  obtain ⟨v, hv⟩ := Option.isSome_iff_exists.mp hvalue
  obtain ⟨q, hq⟩ := Option.isSome_iff_exists.mp hquantity
  refine ⟨?_, ?_, (Execution.not_neg_of_sound hkind hsound).2, hlt⟩
  · rw [whole_eq hv, hv]
  · rw [whole_eq hq, hq]

/-- It is enough to look at the symbols that were traded. -/
theorem volume_of_traded (h : ∀ e ∈ log, bought e.symbol log + sold e.symbol log < 10 ^ 9)
    (symbol : Symbol) : bought symbol log + sold symbol log < 10 ^ 9 := by
  by_cases htraded : ∃ e ∈ log, e.symbol = symbol
  · obtain ⟨e, he, rfl⟩ := htraded
    exact h e he
  · have hnone : fillsIn symbol log = [] := by
      refine List.filter_eq_nil_iff.mpr fun e he => ?_
      have hother : e.symbol ≠ symbol := fun hs => htraded ⟨e, he, hs⟩
      simp [hother]
    unfold bought sold
    rw [hnone]
    decide

end

/-! ### Exact ledgers -/

namespace Ledger

/-- A ledger with the sums of the log upon the initial cash. -/
structure Exact (cash : Float) (log : List (Execution Float)) (l : Ledger Float) : Prop where
  money : whole? l.cash = some (balance cash log)
  solvent : 0 ≤ balance cash log
  position : ∀ symbol, whole? (l.position symbol) = some (bought symbol log - sold symbol log)
  entry : ∀ symbol, (l.holdings.get? symbol).isSome = true ↔
    bought symbol log - sold symbol log ≠ 0

/-- **A whole change makes a whole position,** with an entry unless it is zero. -/
theorem adjusted_exact {l : Ledger Float} {symbol : Symbol} {change : Float} {n k : ℤ}
    (hposition : whole? (l.position symbol) = some n) (hchange : whole? change = some k)
    (hn : |n| < 10 ^ 9) (hk : |k| < 10 ^ 9) (hsum : |n + k| < 10 ^ 9) (cash : Float) :
    whole? (position ⟨cash, l.adjusted symbol change⟩ symbol) = some (n + k) ∧
      (((l.adjusted symbol change).get? symbol).isSome = true ↔ n + k ≠ 0) := by
  have hrest : whole? (l.position symbol + change) = some (n + k) :=
    whole?_add hposition hchange (hsum.trans (by norm_num))
  have hscale : whole? (larger (magnitude (l.position symbol)) (magnitude change)) =
      some (max |n| |k|) :=
    whole?_larger (whole?_magnitude hposition) (whole?_magnitude hchange)
  have hflat := isFlat_whole hrest hscale
    (by rw [abs_of_nonneg (le_max_of_le_left (abs_nonneg n))]; exact max_lt hn hk)
  unfold position
  rw [get?_adjusted, if_pos rfl]
  by_cases hzero : n + k = 0
  · rw [if_pos (hflat.mpr hzero), hzero]
    exact ⟨whole?_zero, by simp⟩
  · rw [if_neg (mt hflat.mp hzero)]
    exact ⟨hrest, by simp [hzero]⟩

namespace Exact

variable {cash : Float} {log : List (Execution Float)} {e : Execution Float} {l m : Ledger Float}

/-- Nothing has been booked. -/
theorem nil (hcash : (whole? cash).isSome = true) (hpos : ¬ cash < 0) :
    Exact cash [] (ofCash cash) := by
  obtain ⟨n, hn⟩ := Option.isSome_iff_exists.mp hcash
  have hbalance : balance cash [] = n := by
    unfold balance
    rw [whole_eq hn]
    exact (add_zero _).trans (sub_zero n)
  constructor
  · rw [hbalance]
    exact hn
  · rw [hbalance, ← whole_eq hn]
    exact whole_not_neg hpos
  · exact fun symbol => whole?_zero
  · exact fun symbol => ⟨fun h => (by cases h), fun h => absurd rfl h⟩

/-- A fill that leaves whole cash and changes a position by a whole quantity. -/
theorem settle (h : Exact cash log l) (hm : Moderate cash (log ++ [e]))
    (hsound : ∀ e' ∈ log ++ [e], ¬ e'.Unsound) {left change : Float}
    (hleft : whole? left = some (balance cash log - e.paid))
    (hchange : whole? change = some e.gained) (hok : l.settle e left change = .ok m) :
    Exact cash (log ++ [e]) m := by
  obtain ⟨hsolvent, rfl⟩ := settle_ok hok
  have hchanged : whole? (Ledger.position ⟨left, l.adjusted e.symbol change⟩ e.symbol) =
        some (bought e.symbol log - sold e.symbol log + e.gained) ∧
      (((l.adjusted e.symbol change).get? e.symbol).isSome = true ↔
        bought e.symbol log - sold e.symbol log + e.gained ≠ 0) := by
    have hlog : ∀ e' ∈ log, ¬ e'.Unsound := fun e' he' => hsound e' (List.mem_append_left _ he')
    have hlast : ∀ e' ∈ [e], ¬ e'.Unsound := fun e' he' => hsound e' (List.mem_append_right _ he')
    have hgained := gained_eq e.symbol e
    rw [if_pos rfl] at hgained
    have hvolume := hm.volume e.symbol
    rw [bought_append, sold_append] at hvolume
    have hbought : 0 ≤ bought e.symbol log := bought_not_neg hlog
    have hsold : 0 ≤ sold e.symbol log := sold_not_neg hlog
    have hbought' : 0 ≤ bought e.symbol [e] := bought_not_neg hlast
    have hsold' : 0 ≤ sold e.symbol [e] := sold_not_neg hlast
    refine adjusted_exact (h.position e.symbol) hchange ?_ ?_ ?_ left <;>
      rw [abs_lt] <;> constructor <;> linarith
  constructor
  · rw [balance_snoc]
    exact hleft
  · rw [balance_snoc, ← whole_eq hleft]
    exact whole_not_neg hsolvent
  · intro symbol
    rw [net_snoc, position_adjusted]
    by_cases hs : e.symbol = symbol
    · rw [if_pos hs, ← hs, if_pos rfl]
      have hposition := hchanged.1
      rwa [position_adjusted, if_pos rfl] at hposition
    · rw [if_neg hs, if_neg hs, add_zero]
      exact h.position symbol
  · intro symbol
    rw [net_snoc]
    by_cases hs : e.symbol = symbol
    · rw [if_pos hs, ← hs]
      exact hchanged.2
    · rw [if_neg hs, add_zero]
      show ((l.adjusted e.symbol change).get? symbol).isSome = true ↔ _
      rw [get?_adjusted, if_neg hs]
      exact h.entry symbol

/-- An execution that moves nothing. -/
theorem idle (h : Exact cash log l) (hpaid : e.paid = 0) (hgained : e.gained = 0) :
    Exact cash (log ++ [e]) l := by
  have hbalance : balance cash (log ++ [e]) = balance cash log := by
    rw [balance_snoc, hpaid, sub_zero]
  have hnet : ∀ symbol, bought symbol (log ++ [e]) - sold symbol (log ++ [e]) =
      bought symbol log - sold symbol log := fun symbol => by
    rw [net_snoc, hgained, ite_self, add_zero]
  constructor
  · rw [hbalance]
    exact h.money
  · rw [hbalance]
    exact h.solvent
  · intro symbol
    rw [hnet]
    exact h.position symbol
  · intro symbol
    rw [hnet]
    exact h.entry symbol

/-- **An execution of whole amounts keeps a ledger exact.** -/
theorem apply (h : Exact cash log l) (hm : Moderate cash (log ++ [e]))
    (hsound : ∀ e' ∈ log ++ [e], ¬ e'.Unsound) (hok : l.apply e = .ok m) :
    Exact cash (log ++ [e]) m := by
  have hbound : balance cash log < 2 ^ 53 := hm.money log (List.prefix_append _ _)
  have hsolvent := h.solvent
  have hfill := hm.fill_last (hsound e (by simp))
  have hafter : balance cash log - e.paid < 2 ^ 53 := by
    rw [← balance_snoc]
    exact hm.money _ (List.prefix_refl _)
  unfold Ledger.apply at hok
  cases hkind : e.kind with
  | buy =>
    obtain ⟨hvalue, hquantity, hpos, hlt⟩ := hfill (by rw [hkind]; rfl)
    have hpaid : e.paid = whole e.value := by simp [Execution.paid, hkind]
    have hgained : e.gained = whole e.quantity := by simp [Execution.gained, hkind]
    simp only [hkind] at hok
    refine h.settle hm hsound ?_ ?_ hok
    · rw [hpaid]
      exact whole?_sub h.money hvalue (abs_lt.mpr ⟨by linarith, by linarith⟩)
    · rw [hgained]
      exact hquantity
  | sell =>
    obtain ⟨hvalue, hquantity, hpos, hlt⟩ := hfill (by rw [hkind]; rfl)
    have hpaid : e.paid = -whole e.value := by simp [Execution.paid, hkind]
    have hgained : e.gained = -whole e.quantity := by simp [Execution.gained, hkind]
    simp only [hkind] at hok
    rw [hpaid, sub_neg_eq_add] at hafter
    refine h.settle hm hsound ?_ ?_ hok
    · rw [hpaid, sub_neg_eq_add]
      exact whole?_add h.money hvalue (abs_lt.mpr ⟨by linarith, hafter⟩)
    · rw [hgained]
      exact whole?_neg hquantity
  | cancel | modify =>
    have hpaid : e.paid = 0 := by simp [Execution.paid, hkind]
    have hgained : e.gained = 0 := by simp [Execution.gained, hkind]
    simp only [hkind] at hok
    obtain rfl := Except.ok.inj hok
    exact h.idle hpaid hgained

end Exact

/-- A log that is booked is booked up to its last execution. -/
theorem replay_init {l m : Ledger Float} {log : List (Execution Float)} {e : Execution Float}
    (h : l.replay (log ++ [e]) = .ok m) : ∃ l', l.replay log = .ok l' ∧ l'.apply e = .ok m := by
  cases hlog : l.replay log with
  | ok l' =>
    rw [replay_snoc hlog e] at h
    exact ⟨l', rfl, h⟩
  | error cause =>
    unfold replay at h hlog
    rw [List.foldlM_append, hlog] at h
    cases h

/-- **Booking a log of whole amounts is exact.** -/
theorem exact_replay {cash : Float} (hpos : ¬ cash < 0) {log : List (Execution Float)} :
    Moderate cash log → (∀ e ∈ log, ¬ e.Unsound) → ∀ {l : Ledger Float},
      (ofCash cash).replay log = .ok l → Exact cash log l := by
  induction log using List.reverseRecOn with
  | nil =>
    intro hm _ l h
    obtain rfl := Except.ok.inj h
    exact .nil hm.start hpos
  | append_singleton log e ih =>
    intro hm hsound l h
    obtain ⟨m, hlog, happly⟩ := replay_init h
    have hexact := ih (hm.init (hsound e (by simp)))
      (fun e' he' => hsound e' (List.mem_append_left _ he')) hlog
    exact hexact.apply hm hsound happly

end Ledger

/-! ### Runs -/

namespace Broker

section

variable {σ α : Type} [Amount α]

/-- No execution that is logged or held is unsound. -/
def Sound (b : Broker σ α) : Prop :=
  (∀ e ∈ b.tradeLog, ¬ e.Unsound) ∧ ∀ e ∈ b.executionsHeld, ¬ e.Unsound

variable [Service σ α]

/-- What a call brings has been checked. -/
theorem arriving_sound {b : Broker σ α} {call : Call α} {e : Execution α}
    (he : e ∈ b.arriving call) : ¬ e.Unsound := by
  unfold arriving at he
  cases call with
  | insert order => cases he
  | tick =>
    simp only at he
    rcases hd : b.due with ⟨fault | ⟨step, report⟩, c⟩
    · rw [hd] at he
      cases hheld : b.held <;> rw [hheld] at he <;> cases he
    · rw [hd] at he
      rcases due_ok hd with ⟨-, ⟨hheld, -, -⟩ | ⟨hfree, -, reply, s, -, hcheck, -⟩⟩
      · rw [hheld] at he
        cases he
      · rw [hfree] at he
        obtain ⟨hsound, -, hstep⟩ := StepReply.check_ok hcheck
        have hmem : e ∈ step.executed := he
        rw [hstep] at hmem
        exact hsound e hmem

theorem Sound.perform {b : Broker σ α} (h : b.Sound) (call : Call α) :
    (b.perform call).2.Sound := by
  obtain ⟨hlog, hbalance⟩ := b.perform_executions call
  have hold : ∀ e ∈ b.executionsHeld ++ b.arriving call, ¬ e.Unsound := by
    intro e he
    rcases List.mem_append.mp he with hheld | harriving
    · exact h.2 e hheld
    · exact arriving_sound harriving
  rw [hbalance] at hold
  refine ⟨fun e he => ?_, fun e he => hold e (List.mem_append_right _ he)⟩
  rw [hlog] at he
  rcases List.mem_append.mp he with hlogged | hlogging
  · exact h.1 e hlogged
  · exact hold e (List.mem_append_left _ (List.mem_append_left _ hlogging))

/-- **In every state of a run what is logged or held is sound,** and the ledger is the log
upon the initial cash. -/
theorem sound_operated {cash : α} : ∀ (ops : List (Operation σ α)) {b : Broker σ α}, b.Sound →
    Replays cash b → (b.operated ops).Sound ∧ Replays cash (b.operated ops)
  | [], _, hsound, hreplays => ⟨hsound, hreplays⟩
  | op :: ops, b, hsound, hreplays => by
    show ((b.operate op).operated ops).Sound ∧ Replays cash ((b.operate op).operated ops)
    rcases b.operate_cases op with ⟨made, hop⟩ | ⟨s, hop⟩
    · rw [hop]
      exact sound_operated ops (hsound.perform made) (replays_after [made] hreplays)
    · rw [hop]
      exact sound_operated ops hsound hreplays

end

/-- **Accounts in whole numbers are exact.** In every state that operations lead to, with
an initial cash and logged fills that are whole, sums of money below 2 ^ 53 and less than
10 ^ 9 traded of each symbol:

* the cash is the initial cash less the values of the buys and plus those of the sells;
* each position is what was bought of the symbol less what was sold of it;
* a symbol has an entry among the holdings if and only if the two differ.

Fills that were refused, or that are still held, need not be whole. -/
theorem whole_accounts {σ : Type} [Service σ Float] {setup : Setup Float} {service : σ}
    {b : Broker σ Float} (h : connect setup service = .ok b) {cash : Float}
    (hcash : setup.cash = some cash) (ops : List (Operation σ Float))
    (hm : Moderate cash (b.operated ops).tradeLog) :
    let ledger := (b.operated ops).account.ledger
    let log := (b.operated ops).tradeLog
    whole? ledger.cash =
      some (whole cash - total .buy (·.value) log + total .sell (·.value) log) ∧
    (∀ symbol, whole? (ledger.position symbol) = some (bought symbol log - sold symbol log)) ∧
    ∀ symbol, (ledger.holdings.get? symbol).isSome = true ↔
      bought symbol log - sold symbol log ≠ 0 := by
  intro ledger log
  obtain ⟨cash', hcash', hpos, haccount, hlog, hfree, -⟩ := connect_ok h
  obtain rfl : cash = cash' := Option.some.inj (hcash.symm.trans hcash')
  have hstart : b.Sound := by
    refine ⟨fun e he => ?_, fun e he => ?_⟩
    · rw [hlog] at he
      cases he
    · unfold executionsHeld at he
      rw [hfree] at he
      cases he
  have hreplays : Replays cash b := by
    unfold Replays
    rw [hlog, haccount]
    rfl
  obtain ⟨hsound, hreplay⟩ := sound_operated ops hstart hreplays
  have hexact := Ledger.exact_replay hpos hm hsound.1 hreplay
  exact ⟨hexact.money, hexact.position, hexact.entry⟩

/-- A buy, a buy that the cash does not cover, a sell of more than is held, and a symbol
that is bought and sold again. -/
def sampleTrades : List (Execution Float) := [
  .bought sampleSymbol 400 40 101 ⟨1⟩,
  .bought sampleSymbol 2000.5 200 101 ⟨2⟩,
  .sold sampleSymbol 500 70 101 ⟨3⟩,
  .bought ⟨"XYZ"⟩ 60 5 101 ⟨4⟩,
  .sold ⟨"XYZ"⟩ 70 5 101 ⟨5⟩]

def sampleTrading : ScriptedService Float :=
  ((Scenario.blank.startingAt 100).withQuote sampleSymbol 10 11).service.pushStep
    ⟨true, sampleTrades, [], ∅, ∅, some 101⟩

def sampleTrader : Broker (ScriptedService Float) Float where
  service := { sampleTrading with requests := [.dataset "sample"] }
  session := ⟨0⟩
  finished := false
  account := .ofCash 1000
  quotes := sampleTrading.quotes
  depths := ∅
  now := some 100
  tradeLog := []
  insertedLastTick := []
  values := []
  held := none
  journal := [.sessionStarted (some 100)]

/-- The session after two ticks. -/
def sampleTraded : Broker (ScriptedService Float) Float :=
  sampleTrader.operated [.call .tick, .call .tick]

/-- The second buy is refused and does not count, although it is not whole. -/
theorem sample_whole_accounts :
    Moderate 1000 sampleTraded.tradeLog ∧
    whole? sampleTraded.account.ledger.cash = some 1110 ∧
    whole? (sampleTraded.account.ledger.position sampleSymbol) = some (-30) ∧
    (sampleTraded.account.ledger.holdings.get? sampleSymbol).isSome = true ∧
    ¬ (sampleTraded.account.ledger.holdings.get? ⟨"XYZ"⟩).isSome = true := by
  have hconnect : connect ⟨some 1000, some (.dataset "sample")⟩ sampleTrading =
    .ok sampleTrader := rfl
  have hmoderate : Moderate 1000 sampleTraded.tradeLog := by
    constructor
    · decide +kernel
    · decide +kernel
    · have hall : ∀ front ∈ sampleTraded.tradeLog.inits, balance 1000 front < 2 ^ 53 := by
        decide +kernel
      exact fun front hfront => hall front ((List.mem_inits _ _).mpr hfront)
    · exact volume_of_traded (by decide +kernel)
  have haccounts := whole_accounts hconnect rfl [.call .tick, .call .tick] hmoderate
  rw [← sampleTraded] at haccounts
  obtain ⟨hcash, hposition, hentry⟩ := haccounts
  have hbalance : balance 1000 sampleTraded.tradeLog = 1110 := by decide +kernel
  have hheld : bought sampleSymbol sampleTraded.tradeLog -
    sold sampleSymbol sampleTraded.tradeLog = -30 := by decide +kernel
  have hflat : bought ⟨"XYZ"⟩ sampleTraded.tradeLog -
    sold ⟨"XYZ"⟩ sampleTraded.tradeLog = 0 := by decide +kernel
  refine ⟨hmoderate, hcash.trans (congrArg some hbalance),
    (hposition sampleSymbol).trans (congrArg some hheld), (hentry sampleSymbol).mpr ?_,
    mt (hentry ⟨"XYZ"⟩).mp ?_⟩
  · rw [hheld]
    decide
  · rw [hflat]
    exact not_not_intro rfl

end Broker
end Brokerage
