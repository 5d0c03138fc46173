/-
# Looking up in a table after a change

An insertion changes what is found under its key and nothing else, and so does a
removal. Neither puts a key in a table twice.

Key definitions: `Table.Distinct`.
Key theorems: `Table.get?_insert`, `Table.get?_erase`, `Table.Distinct.insert`,
`Table.Distinct.erase`.
-/
import Brokerage.Table

namespace Brokerage
namespace Table

variable {κ β : Type} [DecidableEq κ]

theorem lookup_head (key : κ) (b : β) (es : List (κ × β)) :
    lookup key ((key, b) :: es) = some b :=
  if_pos rfl

theorem lookup_tail {k key : κ} (h : k ≠ key) (b : β) (es : List (κ × β)) :
    lookup key ((k, b) :: es) = lookup key es :=
  if_neg h

theorem lookup_put (key other : κ) (b : β) : ∀ es : List (κ × β),
    lookup other (put key b es) = if key = other then some b else lookup other es
  | [] => rfl
  | (k, c) :: es => by
    have ih := lookup_put key other b es
    by_cases hk : k = key
    · subst hk
      by_cases ho : k = other
      · simp [put, lookup, ho]
      · simp [put, lookup, ho]
    · by_cases ho : k = other
      · have hne : key ≠ other := fun h => hk (ho.trans h.symm)
        rw [put, if_neg hk, lookup, lookup, if_pos ho, if_pos ho, if_neg hne]
      · rw [put, if_neg hk, lookup, lookup, if_neg ho, if_neg ho, ih]

theorem get?_insert (t : Table κ β) (key other : κ) (b : β) :
    (t.insert key b).get? other = if key = other then some b else t.get? other :=
  lookup_put key other b t.entries

theorem lookup_filter (key other : κ) : ∀ es : List (κ × β),
    lookup other (es.filter fun e => e.1 ≠ key) = if key = other then none else lookup other es
  | [] => by simp [lookup]
  | (k, c) :: es => by
    have ih := lookup_filter key other es
    by_cases hk : k = key
    · subst hk
      rw [List.filter_cons_of_neg (by simp), ih]
      by_cases ho : k = other
      · simp [ho]
      · simp [lookup, ho]
    · rw [List.filter_cons_of_pos (by simpa using hk)]
      by_cases ho : k = other
      · have hne : key ≠ other := fun h => hk (ho.trans h.symm)
        rw [lookup, lookup, if_pos ho, if_pos ho, if_neg hne]
      · rw [lookup, lookup, if_neg ho, if_neg ho, ih]

theorem get?_erase (t : Table κ β) (key other : κ) :
    (t.erase key).get? other = if key = other then none else t.get? other :=
  lookup_filter key other t.entries

theorem lookup_isSome_of_mem {entry : κ × β} : ∀ {es : List (κ × β)}, entry ∈ es →
    (lookup entry.1 es).isSome = true
  | (k, c) :: es, h => by
    by_cases hk : k = entry.1
    · rw [lookup, if_pos hk]
      rfl
    · have hrest : entry ∈ es :=
        (List.mem_cons.mp h).resolve_left fun heq => hk (congrArg Prod.fst heq).symm
      rw [lookup, if_neg hk]
      exact lookup_isSome_of_mem hrest

theorem lookup_eq_none_of_not_mem {key : κ} : ∀ {es : List (κ × β)}, key ∉ es.map (·.1) →
    lookup key es = none
  | [], _ => rfl
  | (k, c) :: es, h => by
    rw [List.map_cons, List.mem_cons, not_or] at h
    rw [lookup, if_neg (Ne.symm h.1)]
    exact lookup_eq_none_of_not_mem h.2

theorem mem_of_lookup {key : κ} {b : β} : ∀ {es : List (κ × β)}, lookup key es = some b →
    (key, b) ∈ es
  | [], h => by cases h
  | (k, c) :: es, h => by
    by_cases hk : k = key
    · subst hk
      rw [lookup_head] at h
      rw [← Option.some.inj h]
      exact List.mem_cons_self
    · rw [lookup_tail hk] at h
      exact List.mem_cons_of_mem _ (mem_of_lookup h)

theorem contains_iff {t : Table κ β} {key : κ} :
    t.contains key = true ↔ ∃ b, t.get? key = some b :=
  Option.isSome_iff_exists

theorem contains_eq_false_iff {t : Table κ β} {key : κ} :
    t.contains key = false ↔ t.get? key = none :=
  Option.isSome_eq_false_iff.trans Option.isNone_iff_eq_none

/-! ### Keys -/

/-- No key stands in the table twice. -/
def Distinct (t : Table κ β) : Prop :=
  (t.entries.map (·.1)).Nodup

omit [DecidableEq κ] in
theorem distinct_empty : (∅ : Table κ β).Distinct :=
  List.nodup_nil

/-- Where no key stands twice, each is found. -/
theorem lookup_of_nodup {key : κ} {b : β} : ∀ {es : List (κ × β)}, (es.map (·.1)).Nodup →
    (key, b) ∈ es → lookup key es = some b
  | [], _, hmem => by cases hmem
  | (k, c) :: es, hnodup, hmem => by
    obtain ⟨hk, hrest⟩ := List.nodup_cons.mp hnodup
    rcases List.mem_cons.mp hmem with heq | hmem
    · obtain ⟨rfl, rfl⟩ := Prod.mk.inj heq
      exact lookup_head key b es
    · rw [lookup_tail fun h => hk (by rw [h]; exact List.mem_map_of_mem (f := (·.1)) hmem)]
      exact lookup_of_nodup hrest hmem

/-- A value under a new key is entered last. -/
theorem put_fresh (key : κ) (b : β) : ∀ {es : List (κ × β)},
    key ∉ es.map (·.1) → put key b es = es ++ [(key, b)]
  | [], _ => rfl
  | (k, c) :: es, h => by
    rw [List.map_cons, List.mem_cons, not_or] at h
    rw [put, if_neg (Ne.symm h.1), put_fresh key b h.2]
    rfl

/-- A value under a key that is there leaves the keys as they are. -/
theorem keys_put (key : κ) (b : β) : ∀ {es : List (κ × β)},
    key ∈ es.map (·.1) → (put key b es).map (·.1) = es.map (·.1)
  | [], h => by cases h
  | (k, c) :: es, h => by
    by_cases hk : k = key
    · rw [put, if_pos hk]
      rfl
    · have hrest : key ∈ es.map (·.1) := (List.mem_cons.mp h).resolve_left (Ne.symm hk)
      rw [put, if_neg hk, List.map_cons, keys_put key b hrest]
      rfl

theorem Distinct.insert {t : Table κ β} (h : t.Distinct) (key : κ) (b : β) :
    (t.insert key b).Distinct := by
  by_cases hkey : key ∈ t.entries.map (·.1)
  · have hkeys : ((t.insert key b).entries).map (·.1) = t.entries.map (·.1) :=
      keys_put key b hkey
    unfold Distinct
    rw [hkeys]
    exact h
  · have hkeys : (t.insert key b).entries = t.entries ++ [(key, b)] := put_fresh key b hkey
    unfold Distinct
    rw [hkeys, List.map_append, List.map_singleton]
    refine List.nodup_append.mpr ⟨h, by simp, fun k hk other hother heq => ?_⟩
    rw [heq, List.mem_singleton.mp hother] at hk
    exact hkey hk

theorem Distinct.erase {t : Table κ β} (h : t.Distinct) (key : κ) : (t.erase key).Distinct := by
  have hkept : ((t.erase key).entries.map (·.1)).Sublist (t.entries.map (·.1)) :=
    List.filter_sublist.map _
  exact List.Nodup.sublist hkept h

end Table
end Brokerage
