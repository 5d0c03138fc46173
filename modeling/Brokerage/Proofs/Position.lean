/-
# Cash and positions under a log of executions

A ledger is replayed by booking the executions of a log one after another. What
this does to one symbol depends on the fills in that symbol alone (`shift`), and
no replay that goes through takes cash below zero.

Key definitions: `Ledger.replay`, `shifted`, `fillsIn`.
Key theorems: `Ledger.get?_adjusted`, `Ledger.position_replay`, `Ledger.replay_fills`,
`Ledger.replay_cash_not_neg`.
-/
import Brokerage.Ledger
import Brokerage.Proofs.Table

namespace Brokerage

variable {α : Type} [Amount α]

/-- A position of `held` after a change; a flat rest counts as none. -/
def shifted (held change : α) : α :=
  if isFlat (held + change) (larger (magnitude held) (magnitude change)) then 0
  else held + change

/-- A fill changes its position by its quantity or the opposite. -/
theorem Execution.change_cases {e : Execution α} {change : α}
    (h : e.signedQuantity = some change) : change = e.quantity ∨ change = -e.quantity := by
  unfold signedQuantity at h
  cases hk : e.kind <;> simp only [hk] at h <;> cases h
  · exact .inl rfl
  · exact .inr rfl

/-- What an execution makes of the position in its symbol. -/
def Execution.shift (held : α) (e : Execution α) : α :=
  match e.signedQuantity with
  | some change => shifted held change
  | none => held

/-- The fills of a log in one symbol. -/
def fillsIn (symbol : Symbol) (log : List (Execution α)) : List (Execution α) :=
  log.filter fun e => e.kind.isFill && decide (e.symbol = symbol)

namespace Ledger

/-- Books the executions of a log, the first one first. -/
def replay (l : Ledger α) (log : List (Execution α)) : Except (Insolvency α) (Ledger α) :=
  log.foldlM apply l

theorem replay_snoc {l m : Ledger α} {log : List (Execution α)} (h : l.replay log = .ok m)
    (e : Execution α) : l.replay (log ++ [e]) = m.apply e := by
  unfold replay at h ⊢
  rw [List.foldlM_append, h]
  exact bind_pure (m.apply e)

theorem position_ofCash (cash : α) (symbol : Symbol) : (ofCash cash).position symbol = 0 := rfl

theorem position_of_none {l : Ledger α} {symbol : Symbol} (h : l.holdings.get? symbol = none) :
    l.position symbol = 0 := by
  unfold position
  rw [h]
  rfl

theorem position_of_some {l : Ledger α} {symbol : Symbol} {held : α}
    (h : l.holdings.get? symbol = some held) : l.position symbol = held := by
  unfold position
  rw [h]
  rfl

/-- What holds of zero and of every entry holds of every position. -/
theorem position_of {l : Ledger α} {P : α → Prop} (hzero : P 0)
    (h : ∀ {symbol quantity}, l.holdings.get? symbol = some quantity → P quantity)
    (symbol : Symbol) : P (l.position symbol) := by
  cases hentry : l.holdings.get? symbol with
  | none => rwa [position_of_none hentry]
  | some quantity =>
    rw [position_of_some hentry]
    exact h hentry

theorem settle_ok {l m : Ledger α} {e : Execution α} {cash change : α}
    (h : l.settle e cash change = .ok m) : ¬ cash < 0 ∧ m = ⟨cash, l.adjusted e.symbol change⟩ := by
  unfold settle at h
  split at h
  · cases h
  · rename_i hcash
    exact ⟨hcash, (Except.ok.inj h).symm⟩

/-- A change enters the rest under its symbol, or drops it if it is flat. -/
theorem get?_adjusted (l : Ledger α) (symbol other : Symbol) (change : α) :
    (l.adjusted symbol change).get? other =
      if symbol = other then
        if isFlat (l.position symbol + change)
            (larger (magnitude (l.position symbol)) (magnitude change)) then none
        else some (l.position symbol + change)
      else l.holdings.get? other := by
  unfold adjusted
  simp only
  split
  · rw [Table.get?_erase]
  · rw [Table.get?_insert]

/-- A change of one position leaves the others as they are. -/
theorem get?_adjusted_of_ne (l : Ledger α) (change : α) {symbol other : Symbol}
    (h : other ≠ symbol) : (l.adjusted symbol change).get? other = l.holdings.get? other :=
  (get?_adjusted l symbol other change).trans (if_neg (Ne.symm h))

theorem distinct_adjusted {l : Ledger α} (h : l.holdings.Distinct) (symbol : Symbol)
    (change : α) : (l.adjusted symbol change).Distinct := by
  unfold adjusted
  simp only
  split
  · exact h.erase symbol
  · exact h.insert symbol _

theorem position_adjusted (l : Ledger α) (symbol other : Symbol) (cash change : α) :
    position ⟨cash, l.adjusted symbol change⟩ other =
      if symbol = other then shifted (l.position symbol) change else l.position other := by
  have hentry : position ⟨cash, l.adjusted symbol change⟩ other =
      ((l.adjusted symbol change).get? other).getD 0 := rfl
  rw [hentry, get?_adjusted]
  unfold shifted
  split
  · split <;> rfl
  · rfl

/-- A fill that is booked leaves cash that is not negative and changes one
position; any other execution changes nothing. -/
theorem apply_cases {l m : Ledger α} {e : Execution α} (h : l.apply e = .ok m) :
    (e.kind.isFill = true ∧ ∃ cash change, e.signedQuantity = some change ∧ ¬ cash < 0 ∧
      m = ⟨cash, l.adjusted e.symbol change⟩) ∨
    (e.kind.isFill = false ∧ e.signedQuantity = none ∧ m = l) := by
  unfold apply at h
  cases hk : e.kind with
  | buy =>
    simp only [hk] at h
    obtain ⟨hcash, hm⟩ := settle_ok h
    exact .inl ⟨rfl, _, _, by simp [Execution.signedQuantity, hk], hcash, hm⟩
  | sell =>
    simp only [hk] at h
    obtain ⟨hcash, hm⟩ := settle_ok h
    exact .inl ⟨rfl, _, _, by simp [Execution.signedQuantity, hk], hcash, hm⟩
  | cancel =>
    simp only [hk] at h
    exact .inr ⟨rfl, by simp [Execution.signedQuantity, hk], (Except.ok.inj h).symm⟩
  | modify =>
    simp only [hk] at h
    exact .inr ⟨rfl, by simp [Execution.signedQuantity, hk], (Except.ok.inj h).symm⟩

theorem apply_of_not_fill (l : Ledger α) {e : Execution α} (h : e.kind.isFill = false) :
    l.apply e = .ok l := by
  unfold apply
  cases hk : e.kind <;> simp_all [ExecutionKind.isFill]

theorem position_apply {l m : Ledger α} {e : Execution α} (h : l.apply e = .ok m)
    (symbol : Symbol) : m.position symbol =
      (fillsIn symbol [e]).foldl Execution.shift (l.position symbol) := by
  rcases apply_cases h with ⟨hfill, cash, change, hq, -, rfl⟩ | ⟨hfill, -, rfl⟩
  · rw [position_adjusted]
    by_cases hs : e.symbol = symbol
    · simp [fillsIn, hfill, hs, Execution.shift, hq]
    · simp [fillsIn, hs]
  · simp [fillsIn, hfill]

/-- **A position is made by the fills in its symbol.** -/
theorem position_replay (symbol : Symbol) : ∀ {log : List (Execution α)} {l m : Ledger α},
    l.replay log = .ok m →
      m.position symbol = (fillsIn symbol log).foldl Execution.shift (l.position symbol)
  | [], l, m, h => by
    obtain rfl := Except.ok.inj h
    rfl
  | e :: log, l, m, h => by
    unfold replay at h
    rw [List.foldlM_cons] at h
    cases ha : l.apply e with
    | error cause => rw [ha] at h; cases h
    | ok l' =>
      rw [ha] at h
      have ih := position_replay symbol (l := l') h
      rw [ih, position_apply ha symbol, ← List.foldl_append]
      congr 1
      unfold fillsIn
      rw [← List.filter_append]
      rfl

/-- Cancels and modifies can be left out of a log. -/
theorem replay_fills : ∀ (log : List (Execution α)) (l : Ledger α),
    l.replay (log.filter fun e => e.kind.isFill) = l.replay log
  | [], _ => rfl
  | e :: log, l => by
    have ih := replay_fills log
    unfold replay at ih ⊢
    cases hfill : e.kind.isFill with
    | true =>
      rw [List.filter_cons_of_pos (by simpa using hfill), List.foldlM_cons, List.foldlM_cons]
      cases l.apply e with
      | error cause => rfl
      | ok l' => exact ih l'
    | false =>
      rw [List.filter_cons_of_neg (by simp [hfill]), List.foldlM_cons, apply_of_not_fill l hfill]
      exact ih l

theorem apply_cash_not_neg {l m : Ledger α} {e : Execution α} (h : l.apply e = .ok m)
    (hl : ¬ l.cash < 0) : ¬ m.cash < 0 := by
  rcases apply_cases h with ⟨-, cash, change, -, hcash, rfl⟩ | ⟨-, -, rfl⟩
  · exact hcash
  · exact hl

/-- No fill that is booked takes cash below zero. -/
theorem replay_cash_not_neg : ∀ {log : List (Execution α)} {l m : Ledger α},
    l.replay log = .ok m → ¬ l.cash < 0 → ¬ m.cash < 0
  | [], l, m, h, hl => by
    obtain rfl := Except.ok.inj h
    exact hl
  | e :: log, l, m, h, hl => by
    unfold replay at h
    rw [List.foldlM_cons] at h
    cases ha : l.apply e with
    | error cause => rw [ha] at h; cases h
    | ok l' =>
      rw [ha] at h
      exact replay_cash_not_neg (l := l') h (apply_cash_not_neg ha hl)

end Ledger
end Brokerage
