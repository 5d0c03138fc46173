/-
# Taking items one by one

`feed` takes the items of a list until one fails. Where it stops, every item
before the failing one was taken and the failing one left no trace
(`feed_stops`). So a list can be gone through to its end by going on after each
failure: the failures met on the way are `snags`, and what is taken is `passing`.

Key definitions: `taken`, `stuck`, `snags`, `passing`.
Key theorems: `feed_append`, `feed_stops`, `snags_append`, `passing_append`,
`feed_of_snags_cons`, `feed_passing_past`, `feed_hom`.
-/
import Brokerage.Broker.Basic

namespace Brokerage

variable {τ ι ε : Type}

/-- The failures met when every failing item is left out, each with the items
after it. -/
def snags (take : τ → ι → Except ε τ) : τ → List ι → List (ε × List ι)
  | _, [] => []
  | t, i :: is =>
    match take t i with
    | .error e => (e, is) :: snags take t is
    | .ok t => snags take t is

/-- The items that are taken when every failing item is left out. -/
def passing (take : τ → ι → Except ε τ) : τ → List ι → List ι
  | _, [] => []
  | t, i :: is =>
    match take t i with
    | .error _ => passing take t is
    | .ok t => i :: passing take t is

/-- The items before the first that fails. -/
def taken (take : τ → ι → Except ε τ) : τ → List ι → List ι
  | _, [] => []
  | t, i :: is =>
    match take t i with
    | .error _ => []
    | .ok t => i :: taken take t is

/-- The first item that fails. -/
def stuck (take : τ → ι → Except ε τ) : τ → List ι → Option ι
  | _, [] => none
  | t, i :: is =>
    match take t i with
    | .error _ => some i
    | .ok t => stuck take t is

variable {take : τ → ι → Except ε τ}

theorem feed_cons_ok {t u : τ} {i : ι} (h : take t i = .ok u) (is : List ι) :
    feed take t (i :: is) = feed take u is := by
  rw [feed, h]

theorem feed_cons_error {t : τ} {i : ι} {e : ε} (h : take t i = .error e) (is : List ι) :
    feed take t (i :: is) = (t, some (e, is)) := by
  rw [feed, h]

/-- Items that go through are out of the way of the items after them. -/
theorem feed_append : ∀ {done : List ι} {t u : τ}, feed take t done = (u, none) →
    ∀ is, feed take t (done ++ is) = feed take u is
  | [], t, u, h, is => by
    obtain ⟨rfl, -⟩ := Prod.mk.inj h
    rfl
  | i :: done, t, u, h, is => by
    cases hi : take t i with
    | error e =>
      rw [feed_cons_error hi] at h
      cases h
    | ok t' =>
      rw [feed_cons_ok hi] at h
      rw [List.cons_append, feed_cons_ok hi]
      exact feed_append h is

/-- A failure leaves the items that stand further back as they were. -/
theorem feed_append_stopped : ∀ {is : List ι} {t u : τ} {e : ε} {rest : List ι},
    feed take t is = (u, some (e, rest)) →
      ∀ js, feed take t (is ++ js) = (u, some (e, rest ++ js))
  | [], _, _, _, _, h, _ => by cases h
  | i :: is, t, u, e, rest, h, js => by
    cases hi : take t i with
    | error e' =>
      rw [feed_cons_error hi] at h
      rw [List.cons_append, feed_cons_error hi]
      obtain ⟨rfl, hstop⟩ := Prod.mk.inj h
      obtain ⟨rfl, rfl⟩ := Prod.mk.inj (Option.some.inj hstop)
      rfl
    | ok t' =>
      rw [feed_cons_ok hi] at h
      rw [List.cons_append, feed_cons_ok hi]
      exact feed_append_stopped h js

/-- Where all items are taken, those in front are, and then the rest. -/
theorem feed_split {front back : List ι} {t u : τ} (h : feed take t (front ++ back) = (u, none)) :
    feed take t front = ((feed take t front).1, none) ∧
      feed take (feed take t front).1 back = (u, none) := by
  rcases hf : feed take t front with ⟨v, _ | ⟨e, rest⟩⟩
  · rw [feed_append hf] at h
    exact ⟨rfl, h⟩
  · rw [feed_append_stopped hf] at h
    cases h

/-- Items that are made from others are taken as those are. -/
theorem feed_map {κ : Type} {pick : τ → κ → Except ε τ} {g : κ → ι}
    (h : ∀ t k, take t (g k) = pick t k) : ∀ (ks : List κ) (t : τ),
    feed take t (ks.map g) =
      ((feed pick t ks).1, (feed pick t ks).2.map fun stop => (stop.1, stop.2.map g))
  | [], _ => rfl
  | k :: ks, t => by
    have hk := h t k
    cases ht : pick t k with
    | error e =>
      rw [ht] at hk
      rw [List.map_cons, feed_cons_error hk, feed_cons_error ht]
      rfl
    | ok u =>
      rw [ht] at hk
      rw [List.map_cons, feed_cons_ok hk, feed_cons_ok ht]
      exact feed_map h ks u

/-- **Where feeding stops,** the items before the failing one were taken, and the
items after it are given back. -/
theorem feed_stops : ∀ {is : List ι} {t u : τ} {e : ε} {rest : List ι},
    feed take t is = (u, some (e, rest)) →
      ∃ done i, is = done ++ i :: rest ∧ feed take t done = (u, none) ∧ take u i = .error e
  | [], _, _, _, _, h => by cases h
  | i :: is, t, u, e, rest, h => by
    cases hi : take t i with
    | error e' =>
      rw [feed_cons_error hi] at h
      obtain ⟨rfl, hstop⟩ := Prod.mk.inj h
      obtain ⟨rfl, rfl⟩ := Prod.mk.inj (Option.some.inj hstop)
      exact ⟨[], i, rfl, rfl, hi⟩
    | ok t' =>
      rw [feed_cons_ok hi] at h
      obtain ⟨done, j, rfl, hdone, hj⟩ := feed_stops h
      exact ⟨i :: done, j, rfl, by rw [feed_cons_ok hi, hdone], hj⟩

theorem taken_stuck_stopped : ∀ {done : List ι} {t u : τ} {i : ι} {e : ε},
    feed take t done = (u, none) → take u i = .error e → ∀ rest,
      taken take t (done ++ i :: rest) = done ∧ stuck take t (done ++ i :: rest) = some i
  | [], t, u, i, e, h, hi, rest => by
    obtain ⟨rfl, -⟩ := Prod.mk.inj h
    rw [List.nil_append, taken, stuck, hi]
    exact ⟨rfl, rfl⟩
  | j :: done, t, u, i, e, h, hi, rest => by
    cases hj : take t j with
    | error e' =>
      rw [feed_cons_error hj] at h
      cases h
    | ok t' =>
      rw [feed_cons_ok hj] at h
      obtain ⟨htaken, hstuck⟩ := taken_stuck_stopped h hi rest
      rw [List.cons_append, taken, stuck, hj]
      exact ⟨congrArg (j :: ·) htaken, hstuck⟩

theorem taken_stuck_all : ∀ {is : List ι} {t u : τ}, feed take t is = (u, none) →
    taken take t is = is ∧ stuck take t is = none
  | [], _, _, _ => ⟨rfl, rfl⟩
  | i :: is, t, u, h => by
    cases hi : take t i with
    | error e =>
      rw [feed_cons_error hi] at h
      cases h
    | ok t' =>
      rw [feed_cons_ok hi] at h
      obtain ⟨htaken, hstuck⟩ := taken_stuck_all h
      rw [taken, stuck, hi]
      exact ⟨congrArg (i :: ·) htaken, hstuck⟩

/-- Feeding keeps what taking one item keeps. -/
theorem feed_invariant {P : τ → Prop} (h : ∀ t i u, P t → take t i = .ok u → P u) :
    ∀ (is : List ι) (t : τ), P t → P (feed take t is).1
  | [], _, ht => ht
  | i :: is, t, ht => by
    cases hi : take t i with
    | error e => rw [feed_cons_error hi]; exact ht
    | ok u => rw [feed_cons_ok hi]; exact feed_invariant h is u (h t i u ht hi)

/-! ### Going on after a failure -/

theorem snags_cons_ok {t u : τ} {i : ι} (h : take t i = .ok u) (is : List ι) :
    snags take t (i :: is) = snags take u is := by
  rw [snags, h]

theorem snags_cons_error {t : τ} {i : ι} {e : ε} (h : take t i = .error e) (is : List ι) :
    snags take t (i :: is) = (e, is) :: snags take t is := by
  rw [snags, h]

theorem passing_cons_ok {t u : τ} {i : ι} (h : take t i = .ok u) (is : List ι) :
    passing take t (i :: is) = i :: passing take u is := by
  rw [passing, h]

theorem passing_cons_error {t : τ} {i : ι} {e : ε} (h : take t i = .error e) (is : List ι) :
    passing take t (i :: is) = passing take t is := by
  rw [passing, h]

theorem snags_append : ∀ {done : List ι} {t u : τ}, feed take t done = (u, none) →
    ∀ is, snags take t (done ++ is) = snags take u is
  | [], t, u, h, is => by
    obtain ⟨rfl, -⟩ := Prod.mk.inj h
    rfl
  | i :: done, t, u, h, is => by
    cases hi : take t i with
    | error e =>
      rw [feed_cons_error hi] at h
      cases h
    | ok t' =>
      rw [feed_cons_ok hi] at h
      rw [List.cons_append, snags_cons_ok hi]
      exact snags_append h is

theorem passing_append : ∀ {done : List ι} {t u : τ}, feed take t done = (u, none) →
    ∀ is, passing take t (done ++ is) = done ++ passing take u is
  | [], t, u, h, is => by
    obtain ⟨rfl, -⟩ := Prod.mk.inj h
    rfl
  | i :: done, t, u, h, is => by
    cases hi : take t i with
    | error e =>
      rw [feed_cons_error hi] at h
      cases h
    | ok t' =>
      rw [feed_cons_ok hi] at h
      rw [List.cons_append, passing_cons_ok hi, passing_append h is, List.cons_append]

theorem passing_of_feed {done : List ι} {t u : τ} (h : feed take t done = (u, none)) :
    passing take t done = done := by
  have hpass := passing_append h []
  rwa [List.append_nil, passing, List.append_nil] at hpass

/-- A failing item is passed over. -/
theorem feed_passing_past {done : List ι} {t u : τ} (h : feed take t done = (u, none)) {i : ι}
    {e : ε} (hi : take u i = .error e) (is : List ι) :
    feed take t (passing take t (done ++ i :: is)) = feed take u (passing take u is) := by
  rw [passing_append h, passing_cons_error hi, feed_append h]

theorem passing_sublist : ∀ (is : List ι) (t : τ), (passing take t is).Sublist is
  | [], _ => List.Sublist.slnil
  | i :: is, t => by
    cases hi : take t i with
    | error e => rw [passing_cons_error hi]; exact (passing_sublist is t).cons i
    | ok u => rw [passing_cons_ok hi]; exact (passing_sublist is u).cons_cons i

/-- Every item is taken or is a failure. -/
theorem passing_length_add : ∀ (is : List ι) (t : τ),
    (passing take t is).length + (snags take t is).length = is.length
  | [], _ => rfl
  | i :: is, t => by
    cases hi : take t i with
    | error e =>
      rw [passing_cons_error hi, snags_cons_error hi, List.length_cons, List.length_cons]
      have := passing_length_add is t
      omega
    | ok u =>
      rw [passing_cons_ok hi, snags_cons_ok hi, List.length_cons, List.length_cons]
      have := passing_length_add is u
      omega

/-- Without a failure every item is taken. -/
theorem feed_of_snags_nil : ∀ {is : List ι} {t : τ}, snags take t is = [] →
    passing take t is = is ∧ (feed take t is).2 = none
  | [], _, _ => ⟨rfl, rfl⟩
  | i :: is, t, h => by
    cases hi : take t i with
    | error e => rw [snags_cons_error hi] at h; cases h
    | ok u =>
      rw [snags_cons_ok hi] at h
      obtain ⟨hp, hf⟩ := feed_of_snags_nil h
      exact ⟨by rw [passing_cons_ok hi, hp], by rw [feed_cons_ok hi, hf]⟩

/-- The first failure is where feeding stops. -/
theorem feed_of_snags_cons {is : List ι} {t : τ} {e : ε} {rest : List ι}
    {more : List (ε × List ι)} (h : snags take t is = (e, rest) :: more) :
    ∃ done i u, is = done ++ i :: rest ∧ feed take t done = (u, none) ∧ take u i = .error e ∧
      feed take t is = (u, some (e, rest)) ∧ snags take u rest = more := by
  cases hf : feed take t is with
  | mk u stop =>
    cases stop with
    | none =>
      have hs := snags_append hf []
      rw [List.append_nil, h] at hs
      cases hs
    | some stop =>
      obtain ⟨e', rest'⟩ := stop
      obtain ⟨done, i, rfl, hdone, hi⟩ := feed_stops hf
      rw [snags_append hdone, snags_cons_error hi] at h
      obtain ⟨hfirst, rfl⟩ := List.cons.inj h
      obtain ⟨rfl, rfl⟩ := Prod.mk.inj hfirst
      exact ⟨done, i, u, rfl, hdone, hi, rfl, rfl⟩

/-! ### The same items on two states -/

variable {τ' : Type} {take' : τ' → ι → Except ε τ'} {f : τ → τ'}

/-- A change of state that taking an item does not notice is not noticed by
feeding either. -/
theorem feed_hom (h : ∀ t i, take' (f t) i = (take t i).map f) : ∀ (is : List ι) (t : τ),
    feed take' (f t) is = (f (feed take t is).1, (feed take t is).2)
  | [], _ => rfl
  | i :: is, t => by
    have hi := h t i
    cases ht : take t i with
    | error e =>
      rw [ht] at hi
      rw [feed_cons_error ht, feed_cons_error hi]
    | ok u =>
      rw [ht] at hi
      rw [feed_cons_ok ht, feed_cons_ok hi]
      exact feed_hom h is u

theorem snags_hom (h : ∀ t i, take' (f t) i = (take t i).map f) : ∀ (is : List ι) (t : τ),
    snags take' (f t) is = snags take t is
  | [], _ => rfl
  | i :: is, t => by
    have hi := h t i
    cases ht : take t i with
    | error e =>
      rw [ht] at hi
      rw [snags_cons_error ht, snags_cons_error hi, snags_hom h is t]
    | ok u =>
      rw [ht] at hi
      rw [snags_cons_ok ht, snags_cons_ok hi]
      exact snags_hom h is u

theorem passing_hom (h : ∀ t i, take' (f t) i = (take t i).map f) : ∀ (is : List ι) (t : τ),
    passing take' (f t) is = passing take t is
  | [], _ => rfl
  | i :: is, t => by
    have hi := h t i
    cases ht : take t i with
    | error e =>
      rw [ht] at hi
      rw [passing_cons_error ht, passing_cons_error hi, passing_hom h is t]
    | ok u =>
      rw [ht] at hi
      rw [passing_cons_ok ht, passing_cons_ok hi, passing_hom h is u]

end Brokerage
