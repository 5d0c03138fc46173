/-
# What a reader finds in an audit trail

A line of the trail is the text of an object and ends at its line break. Read back, it has
the members of the line in their order, so a name is found to tell what was written under
it unless it was written twice with two values. No name is, but one name is written twice:
the summary of a completed run brings the session that the line has told already
(`AuditLog.names_once`).

Key definitions: `Json.Tree.whole?`, `Json.Tree.text?`, `Json.Tree.Distinct`, `Recovers`.
Key theorems: `Json.pairwise_sortKeysMembers`, `Json.TellsMembers.lookup`,
`Json.distinct_of_tells`, `AuditLog.header_field`, `AuditLog.names_once`,
`AuditLog.lookup_fields`, `AuditLog.splitOn_textOf`, `Broker.trail_reads_back`.
-/
import Brokerage.Proofs.Accounting
import Brokerage.Proofs.JsonText
import Brokerage.Proofs.TrailShape

namespace Brokerage

open Json (Value Tree)

/-! ### Lookups -/

namespace Table

variable {κ β : Type} [DecidableEq κ]

/-- What stands under a key that has one value only is found. -/
theorem lookup_of_mem {key : κ} {b : β} : ∀ {es : List (κ × β)}, (key, b) ∈ es →
    (∀ c, (key, c) ∈ es → c = b) → lookup key es = some b
  | [], hmem, _ => by cases hmem
  | (k, c) :: es, hmem, hone => by
    by_cases hk : k = key
    · subst hk
      rw [lookup_head, hone c List.mem_cons_self]
    · rw [lookup_tail hk]
      refine lookup_of_mem ?_ fun d hd => hone d (List.mem_cons_of_mem _ hd)
      exact (List.mem_cons.mp hmem).resolve_left fun heq => hk (congrArg Prod.fst heq).symm

end Table

namespace Json

/-! ### Names -/

theorem mem_names_insertSorted {name : String} {v : Value} {other : String} :
    ∀ {ms : List (String × Value)}, other ∈ (insertSorted name v ms).map (·.1) →
      other = name ∨ other ∈ ms.map (·.1) := by
  intro ms h
  obtain ⟨⟨key, w⟩, hmem, rfl⟩ := List.mem_map.mp h
  rcases mem_insertSorted hmem with heq | hold
  · exact .inl (congrArg Prod.fst heq)
  · exact .inr (List.mem_map_of_mem hold)

theorem pairwise_insertSorted (name : String) (v : Value) : ∀ {ms : List (String × Value)},
    (ms.map (·.1)).Pairwise (· < ·) → ((insertSorted name v ms).map (·.1)).Pairwise (· < ·)
  | [], _ => List.pairwise_singleton _ _
  | (key, w) :: ms, h => by
    obtain ⟨hkey, hrest⟩ := List.pairwise_cons.mp h
    unfold insertSorted
    split
    · rename_i hbefore
      refine List.pairwise_cons.mpr ⟨fun other hother => ?_, h⟩
      rcases List.mem_cons.mp hother with rfl | hother
      · exact hbefore
      · exact String.lt_trans hbefore (hkey other hother)
    · rename_i hbefore
      split
      · rename_i hafter
        refine List.pairwise_cons.mpr ⟨fun other hother => ?_, pairwise_insertSorted name v hrest⟩
        rcases mem_names_insertSorted hother with rfl | hold
        · exact hafter
        · exact hkey other hold
      · rename_i hafter
        have hsame : key = name :=
          String.le_antisymm (String.not_lt.mp hbefore) (String.not_lt.mp hafter)
        refine List.pairwise_cons.mpr ⟨fun other hother => ?_, hrest⟩
        rw [← hsame]
        exact hkey other hother

/-- Sorted members are in strict order. -/
theorem pairwise_sortKeysMembers (ms : List (String × Value)) :
    ((sortKeysMembers ms).map (·.1)).Pairwise (· < ·) := by
  induction ms with
  | nil =>
    rw [sortKeysMembers]
    exact List.Pairwise.nil
  | cons m ms ih =>
    rw [sortKeysMembers]
    exact pairwise_insertSorted m.1 m.2.sortKeys ih

/-- No name stands twice among sorted members. -/
theorem nodup_sortKeysMembers (ms : List (String × Value)) :
    ((sortKeysMembers ms).map (·.1)).Nodup :=
  (pairwise_sortKeysMembers ms).imp fun hlt heq => by
    rw [heq] at hlt
    exact String.lt_irrefl _ hlt

/-! ### Trees -/

/-- The whole number that was read. -/
def Tree.whole? : Tree → Option ℤ
  | .number n => if n.integral then some n.signed else none
  | _ => none

/-- The text that was read. -/
def Tree.text? : Tree → Option String
  | .text s => s
  | _ => none

theorem Tells.whole? {t : Tree} {k : ℤ} (h : Tells t (.integer k)) : t.whole? = some k := by
  cases h with
  | integer n hn => exact if_pos hn

theorem Tells.text? {t : Tree} {s : String} (h : Tells t (.text s)) : t.text? = some s := by
  cases h
  rfl

mutual

/-- No object has two members of one name. -/
def Tree.Distinct : Tree → Prop
  | .array items _ => DistinctItems items
  | .object members _ => (members.map (·.1)).Nodup ∧ DistinctMembers members
  | _ => True

def DistinctItems : List Tree → Prop
  | [] => True
  | t :: ts => t.Distinct ∧ DistinctItems ts

def DistinctMembers : List Member → Prop
  | [] => True
  | (_, t) :: ms => t.Distinct ∧ DistinctMembers ms

end

namespace TellsMembers

/-- The names that are read are those of the members. -/
theorem names : ∀ {ts : List Member} {ms : List (String × Value)}, TellsMembers ts ms →
    ts.map (·.1) = (ms.map (·.1)).map some
  | _, _, .nil => rfl
  | _, _, .cons name _ hs => congrArg (some name :: ·) hs.names

theorem nodup_iff {ts : List Member} {ms : List (String × Value)} (h : TellsMembers ts ms) :
    (ts.map (·.1)).Nodup ↔ (ms.map (·.1)).Nodup := by
  rw [h.names]
  exact List.nodup_map_iff (Option.some_injective String)

/-- **A name is found to tell what was written under it first.** -/
theorem lookup {name : String} {v : Value} : ∀ {ts : List Member} {ms : List (String × Value)},
    TellsMembers ts ms → Table.lookup name ms = some v →
      ∃ t, Table.lookup (some name) ts = some t ∧ Tells t v
  | _, _, .nil => fun h => by cases h
  | _, _, .cons (t := t) key htells hs => fun h => by
    by_cases hkey : key = name
    · subst hkey
      rw [Table.lookup_head] at h ⊢
      rw [← Option.some.inj h]
      exact ⟨t, rfl, htells⟩
    · rw [Table.lookup_tail hkey] at h
      rw [Table.lookup_tail fun heq => hkey (Option.some.inj heq)]
      exact lookup hs h

theorem distinct : ∀ {ts : List Member} {ms : List (String × Value)}, TellsMembers ts ms →
    (∀ name v, (name, v) ∈ ms → ∀ t, Tells t v → t.Distinct) → DistinctMembers ts
  | _, _, .nil, _ => trivial
  | _, _, .cons name htells hs, h =>
    ⟨h name _ List.mem_cons_self _ htells,
      hs.distinct fun other v hmem => h other v (List.mem_cons_of_mem _ hmem)⟩

end TellsMembers

mutual

/-- What tells a value with sorted members has no name twice. -/
theorem distinct_of_tells : ∀ (v : Value) {t : Tree}, Tells t v.sortKeys → t.Distinct
  | .null, _, h | .bool _, _, h | .integer _, _, h | .amount _, _, h | .text _, _, h => by
    rw [Value.sortKeys] at h
    · cases h <;> trivial
    all_goals (intros; contradiction)
  | .array items, _, h => by
    rw [Value.sortKeys] at h
    cases h with
    | array h => exact distinct_items items h
  | .object ms, _, h => by
    rw [Value.sortKeys] at h
    cases h with
    | object h =>
      refine ⟨h.nodup_iff.mpr (nodup_sortKeysMembers ms), h.distinct fun name v hmem t ht => ?_⟩
      obtain ⟨w, hw, rfl⟩ := mem_sortKeysMembers hmem
      exact distinct_members ms name w hw ht

theorem distinct_items : ∀ (vs : List Value) {ts : List Tree},
    TellsItems ts (sortKeysItems vs) → DistinctItems ts
  | [], _, h => by
    rw [sortKeysItems] at h
    cases h
    trivial
  | v :: vs, _, h => by
    rw [sortKeysItems] at h
    cases h with
    | cons h hs => exact ⟨distinct_of_tells v h, distinct_items vs hs⟩

theorem distinct_members : ∀ (ms : List (String × Value)) (name : String) (v : Value),
    (name, v) ∈ ms → ∀ {t : Tree}, Tells t v.sortKeys → t.Distinct
  | [], _, _, hmem, _, _ => by cases hmem
  | (key, w) :: ms, name, v, hmem, t, h => by
    rcases List.mem_cons.mp hmem with heq | hmem
    · obtain ⟨-, rfl⟩ := Prod.mk.inj heq
      exact distinct_of_tells v h
    · exact distinct_members ms name v hmem h

end

end Json

/-! ### Lines -/

namespace AuditLog

/-- The members that every line of a session begins with. -/
def headerNames : List String :=
  ["seq", "event", "ts", "session"]

/-- The fields that a line has for an entry. -/
def fieldNames : AuditEntry Float → List String
  | .runStarted _ _ => ["plan_file", "initial_cash"]
  | .orderRejected _ ⟨_, .noPosition _⟩ => ["order", "reason", "held", "step"]
  | .orderRejected _ ⟨_, .exceedsPosition _ _⟩ => ["order", "reason", "held", "requested", "step"]
  | .orderResult _ _ => ["step", "order_id", "kind", "symbol", "quantity", "value", "date"]
  | .tickCompleted _ _ => ["step", "now", "submitted", "inserted", "value"]
  | .sessionFinished _ => ["step"]
  | .runCompleted _ => ["session", "ticks", "submitted", "rejected", "results", "final_cash",
      "final_value", "finished"]
  | .runAborted _ _ => ["step", "error"]

theorem names_fields {entry : AuditEntry Float} {fields : List (String × Value)}
    (h : entry.record.fields = .object fields) : fields.map (·.1) = fieldNames entry := by
  cases entry with
  | orderRejected step rejection =>
    obtain ⟨order, reason⟩ := rejection
    cases reason <;> cases h <;> rfl
  | _ => cases h; rfl

/-- The fields of an entry have different names. -/
theorem nodup_fieldNames (entry : AuditEntry Float) : (fieldNames entry).Nodup := by
  cases entry with
  | orderRejected step rejection =>
    obtain ⟨order, reason⟩ := rejection
    cases reason <;> simp only [fieldNames] <;> decide
  | _ => simp only [fieldNames]; decide

/-- **The summary of a run alone has a field that the header has too.** -/
theorem header_field (entry : AuditEntry Float) : ∀ name ∈ fieldNames entry,
    name ∈ headerNames → name = "session" ∧ entry.event = "run_completed" := by
  cases entry with
  | orderRejected step rejection =>
    obtain ⟨order, reason⟩ := rejection
    cases reason <;> simp only [fieldNames, AuditEntry.event] <;> decide
  | _ => simp only [fieldNames, AuditEntry.event]; decide

theorem names_header {log : AuditLog} {id : SessionId} (hlog : log.session = some id)
    (stamp event : String) : (log.header stamp event).map (·.1) = headerNames := by
  unfold header
  rw [hlog]
  rfl

/-- The names of a line are those of the header and then, sorted, those of the fields. -/
theorem members_eq (log : AuditLog) (stamp : String) {entry : AuditEntry Float}
    {fields : List (String × Value)} (h : entry.record.fields = .object fields) :
    log.members stamp entry.record =
      log.header stamp entry.event ++ Json.sortKeysMembers fields := by
  unfold members
  rw [h, Value.sortKeys, entry.record_event]

theorem mem_names_sortKeys {fields : List (String × Value)} {name : String} :
    name ∈ (Json.sortKeysMembers fields).map (·.1) ↔ name ∈ fields.map (·.1) := by
  constructor
  · intro h
    obtain ⟨⟨key, v⟩, hmem, rfl⟩ := List.mem_map.mp h
    obtain ⟨w, hw, -⟩ := Json.mem_sortKeysMembers hmem
    exact List.mem_map_of_mem (f := (·.1)) hw
  · intro h
    obtain ⟨⟨key, v⟩, hmem, rfl⟩ := List.mem_map.mp h
    have hlookup := Json.lookup_sortKeys key fields
    cases hfound : Table.lookup key fields with
    | none =>
      have hsome := Table.lookup_isSome_of_mem hmem
      rw [hfound] at hsome
      cases hsome
    | some w =>
      rw [hfound] at hlookup
      exact List.mem_map_of_mem (f := (·.1)) (Table.mem_of_lookup hlookup)

/-- **No name stands twice in a line but that of the session,** which the summary of a run
brings once more. -/
theorem names_once {log : AuditLog} {id : SessionId} (hlog : log.session = some id)
    (stamp : String) (entry : AuditEntry Float) :
    let names := (log.members stamp entry.record).map (·.1)
    (names.erase "session").Nodup ∧
      names.count "session" = if entry.event = "run_completed" then 2 else 1 := by
  obtain ⟨fields, hfields⟩ := record_fields entry
  have hsorted : ∀ name, name ∈ (Json.sortKeysMembers fields).map (·.1) ↔
      name ∈ fieldNames entry := fun name => by
    rw [mem_names_sortKeys, names_fields hfields]
  have hnodup := Json.nodup_sortKeysMembers fields
  simp only
  rw [members_eq log stamp hfields, List.map_append, names_header hlog]
  constructor
  · rw [List.erase_append_left _ (by decide), List.nodup_append]
    refine ⟨by decide, hnodup, fun name hheader other hfield heq => ?_⟩
    rw [hsorted, ← heq] at hfield
    have hname := (header_field entry name hfield (List.mem_of_mem_erase hheader)).1
    rw [hname] at hheader
    revert hheader
    decide
  · rw [List.count_append, show headerNames.count "session" = 1 by decide]
    by_cases hevent : entry.event = "run_completed"
    · have hmem : "session" ∈ fieldNames entry := by
        cases entry with
        | runCompleted total => exact List.mem_cons_self
        | _ => simp [AuditEntry.event] at hevent
      rw [if_pos hevent, List.count_eq_one_of_mem hnodup ((hsorted _).mpr hmem)]
    · have hnone : "session" ∉ (Json.sortKeysMembers fields).map (·.1) := fun h =>
        hevent (header_field entry _ ((hsorted _).mp h) (by decide)).2
      rw [if_neg hevent, List.count_eq_zero_of_not_mem hnone]

/-- A line of which no name stands twice is not that of the summary. -/
theorem nodup_iff {log : AuditLog} {id : SessionId} (hlog : log.session = some id)
    (stamp : String) (entry : AuditEntry Float) :
    ((log.members stamp entry.record).map (·.1)).Nodup ↔ entry.event ≠ "run_completed" := by
  obtain ⟨herase, hcount⟩ := names_once hlog stamp entry
  constructor
  · intro hnodup hevent
    have hle := List.nodup_iff_count_le_one.mp hnodup "session"
    rw [hcount, if_pos hevent] at hle
    omega
  · intro hevent
    rw [if_neg hevent] at hcount
    refine List.nodup_iff_count_le_one.mpr fun name => ?_
    by_cases hname : name = "session"
    · rw [hname, hcount]
    · rw [← List.count_erase_of_ne (b := "session") hname]
      exact List.nodup_iff_count_le_one.mp herase name

/-- **Each field of an entry is found in its line.** -/
theorem lookup_fields {log : AuditLog} {id : SessionId} (hlog : log.session = some id)
    (stamp : String) {entry : AuditEntry Float}
    (htotal : ∀ total, entry = .runCompleted total → total.session = id)
    {fields : List (String × Value)} (hfields : entry.record.fields = .object fields)
    {name : String} {v : Value} (hmem : (name, v) ∈ fields) :
    Table.lookup name (log.members stamp entry.record) = some v.sortKeys := by
  have hnodup : (fields.map (·.1)).Nodup := by
    rw [names_fields hfields]
    exact nodup_fieldNames entry
  have hsorted : (name, v.sortKeys) ∈ Json.sortKeysMembers fields := by
    refine Table.mem_of_lookup ?_
    rw [Json.lookup_sortKeys, Table.lookup_of_nodup hnodup hmem]
    rfl
  have hline : (name, v.sortKeys) ∈ log.members stamp entry.record := by
    rw [members_eq log stamp hfields]
    exact List.mem_append_right _ hsorted
  refine Table.lookup_of_mem hline fun w hw => ?_
  by_cases hname : name = "session"
  · subst hname
    rw [session_of_mem hlog stamp htotal hw, session_of_mem hlog stamp htotal hline]
  · rw [members_eq log stamp hfields] at hw
    rcases List.mem_append.mp hw with hheader | hfield
    · have hheader' := List.mem_map_of_mem (f := (·.1)) hheader
      rw [names_header hlog] at hheader'
      have hfield' := List.mem_map_of_mem (f := (·.1)) hmem
      rw [names_fields hfields] at hfield'
      exact absurd (header_field entry name hfield' hheader').1 hname
    · have hunique := Table.lookup_of_nodup (Json.nodup_sortKeysMembers fields) hfield
      rw [Table.lookup_of_nodup (Json.nodup_sortKeysMembers fields) hsorted] at hunique
      exact (Option.some.inj hunique).symm

/-! ### The file -/

theorem toList_textOf : ∀ lines : List (List (String × Value)), (textOf lines).toList =
    ['\n'].intercalate (lines.map (fun line => (Value.object line).render.toList) ++ [[]])
  | [] => rfl
  | line :: lines => by
    rw [textOf_cons, String.toList_append, String.toList_append, toList_textOf lines]
    cases lines with
    | nil => simp
    | cons next lines => simp [List.intercalate_cons_cons]

/-- **A reader that splits the text at its line breaks finds the lines,** and nothing behind
the last of them. -/
theorem splitOn_textOf (lines : List (List (String × Value))) :
    (textOf lines).toList.splitOn '\n' =
      lines.map (fun line => (Value.object line).render.toList) ++ [[]] := by
  rw [toList_textOf]
  refine List.splitOn_intercalate '\n' (fun text htext => ?_) (by simp)
  rcases List.mem_append.mp htext with h | h
  · obtain ⟨line, -, rfl⟩ := List.mem_map.mp h
    exact fun hbreak => (Json.read_render (.object line)).1 '\n' hbreak (by decide)
  · rw [List.mem_singleton.mp h]
    exact List.not_mem_nil

end AuditLog

/-- What the members that were read of a line tell, each under its name: the number of the
line, its event, the session and the fields of its entry. -/
structure Recovers (ts : List Json.Member) (number : ℕ) (session : SessionId)
    (entry : AuditEntry Float) : Prop where
  seq : (Table.lookup (some "seq") ts).bind Json.Tree.whole? = some (number : ℤ)
  event : (Table.lookup (some "event") ts).bind Json.Tree.text? = some entry.event
  session : (Table.lookup (some "session") ts).bind Json.Tree.whole? =
    some (session.value.toNat : ℤ)
  fields : ∀ fields, entry.record.fields = .object fields → ∀ name v, (name, v) ∈ fields →
    ∃ t, Table.lookup (some name) ts = some t ∧ Json.Tells t v.sortKeys

namespace AuditLog

/-- **From its members a line is recovered.** -/
theorem recovers {log : AuditLog} {id : SessionId} (hlog : log.session = some id)
    (stamp : String) {entry : AuditEntry Float}
    (htotal : ∀ total, entry = .runCompleted total → total.session = id)
    {ts : List Json.Member} (h : Json.TellsMembers ts (log.members stamp entry.record)) :
    Recovers ts log.written id entry := by
  constructor
  · have hseq : Table.lookup "seq" (log.members stamp entry.record) =
      some (.integer log.written) := rfl
    obtain ⟨t, hfound, htells⟩ := h.lookup hseq
    rw [hfound]
    exact htells.whole?
  · have hevent : Table.lookup "event" (log.members stamp entry.record) =
      some (.text entry.event) := by
      rw [← entry.record_event]
      rfl
    obtain ⟨t, hfound, htells⟩ := h.lookup hevent
    rw [hfound]
    exact htells.text?
  · obtain ⟨t, hfound, htells⟩ := h.lookup (lookup_session hlog stamp entry.record)
    rw [hfound]
    exact htells.whole?
  · exact fun fields hfields name v hmem =>
      h.lookup (lookup_fields hlog stamp htotal hfields hmem)

/-- No object within a line has a name twice. -/
theorem distinct_within {log : AuditLog} {stamp : String} {entry : AuditEntry Float}
    {ts : List Json.Member} (h : Json.TellsMembers ts (log.members stamp entry.record)) :
    Json.DistinctMembers ts := by
  refine h.distinct fun name v hmem t ht => ?_
  obtain ⟨fields, hfields⟩ := record_fields entry
  rw [members_eq log stamp hfields] at hmem
  have hsorted : ∃ w : Value, v = w.sortKeys := by
    rcases List.mem_append.mp hmem with hheader | hfield
    · refine ⟨v, ?_⟩
      unfold header at hheader
      cases hsession : log.session with
      | none =>
        simp [hsession, Json.optionalMember] at hheader
        rcases hheader with ⟨-, rfl⟩ | ⟨-, rfl⟩ | ⟨-, rfl⟩ <;> rfl
      | some id =>
        simp [hsession, Json.optionalMember] at hheader
        rcases hheader with ⟨-, rfl⟩ | ⟨-, rfl⟩ | ⟨-, rfl⟩ | ⟨-, rfl⟩ <;> rfl
    · obtain ⟨w, -, rfl⟩ := Json.mem_sortKeysMembers hfield
      exact ⟨w, rfl⟩
  obtain ⟨w, rfl⟩ := hsorted
  exact Json.distinct_of_tells w ht

end AuditLog

namespace Broker

/-- **What a reader finds in an audit trail.** Whatever the names, symbols and messages, a
replay adds text to the file that splits at its line breaks into the lines of its entries,
one for each. A line has no control character in it, and read back it is one object. No
name stands twice in an object within it; of its own names none does but that of the
session, which stands twice in the line of a completed run and once in any other. Under
these names the number, the event and the session of the line and every field of its entry
are found. -/
theorem trail_reads_back {τ : Type} [Service τ Float] (plan : Plan Float) (options : RunOptions)
    (limit : Nat) (b : Broker τ Float) (log : AuditLog) (stamp : String) (files : FileTree) :
    let done := replay plan options limit b
    let lines := { log with session := some b.session : AuditLog }.lines stamp done.entries
    let text := AuditLog.textOf lines
    (log.writeRun stamp b.session done.entries files).2.text log.place =
      files.text log.place ++ log.unwritten ++ text ∧
    text.toList.splitOn '\n' =
      lines.map (fun line => (Value.object line).render.toList) ++ [[]] ∧
    lines.length = done.entries.length ∧
    ∀ front line back, lines = front ++ line :: back → ∃ entry ts,
      done.entries[front.length]? = some entry ∧
      (∀ c ∈ (Value.object line).render.toList, ¬ c < ' ') ∧
      Json.read (Value.object line).render = (.object ts true, true) ∧
      Json.DistinctMembers ts ∧
      ((ts.map (·.1)).Nodup ↔ entry.event ≠ "run_completed") ∧
      ((ts.map (·.1)).erase (some "session")).Nodup ∧
      (ts.map (·.1)).count (some "session") =
        (if entry.event = "run_completed" then 2 else 1) ∧
      Recovers ts (log.written + front.length) b.session entry := by
  intro done lines text
  refine ⟨replay_text plan options limit b log stamp files, AuditLog.splitOn_textOf lines,
    AuditLog.length_lines stamp _ _, fun front line back hlines => ?_⟩
  obtain ⟨before, entry, since, reached, hsplit, rfl, rfl, -, hnumber, hsession⟩ :=
    AuditLog.lines_split stamp hlines
  obtain ⟨hprinted, t, hread, htells⟩ :=
    Json.read_render (.object (reached.members stamp entry.record))
  cases htells with
  | @object ts _ htells =>
    obtain ⟨herase, hcount⟩ := AuditLog.names_once hsession stamp entry
    refine ⟨entry, ts, ?_, hprinted, hread, AuditLog.distinct_within htells, ?_, ?_, ?_, ?_⟩
    · rw [hsplit, AuditLog.length_lines, List.getElem?_append_right (le_refl _), Nat.sub_self]
      rfl
    · rw [htells.nodup_iff, AuditLog.nodup_iff hsession]
    · rw [htells.names, ← List.map_erase (Option.some_injective String)]
      exact herase.map (Option.some_injective String)
    · rw [htells.names, List.count_map_of_injective _ _ (Option.some_injective String)]
      exact hcount
    · have hrecovers := AuditLog.recovers hsession stamp (session_of_completed hsplit) htells
      rw [hnumber] at hrecovers
      exact hrecovers

/-- A session of which the first tick is the last. -/
def sampleIdle : Broker (ScriptedService Float) Float :=
  { sampleTrader with service := { sampleTrader.service with script := [] } }

/-- The lines of its run in a new trail. -/
def sampleIdleLines : List (List (String × Value)) :=
  AuditLog.lines ⟨["audit.log"], some ⟨0⟩, 0, ""⟩ "noon"
    (replay ⟨[]⟩ ⟨"plan.json", none, 1⟩ 3 sampleIdle).entries

/-- The run completes, and its summary tells the session once more. -/
theorem sample_session_told_twice : ∃ line ts,
    sampleIdleLines.getLast? = some line ∧
    Json.read (Value.object line).render = (.object ts true, true) ∧
    ts.map (·.1) = ["seq", "event", "ts", "session", "final_cash", "final_value", "finished",
      "rejected", "results", "session", "submitted", "ticks"].map some ∧
    ¬ (ts.map (·.1)).Nodup := by
  obtain ⟨line, hline⟩ : ∃ line, sampleIdleLines.getLast? = some line := ⟨_, rfl⟩
  have hnames : sampleIdleLines.getLast?.map (fun line => line.map (·.1)) =
      some ["seq", "event", "ts", "session", "final_cash", "final_value", "finished",
        "rejected", "results", "session", "submitted", "ticks"] := by
    decide +kernel
  rw [hline] at hnames
  obtain ⟨-, t, hread, htells⟩ := Json.read_render (.object line)
  cases htells with
  | @object ts _ h =>
    have hkeys := h.names.trans (congrArg _ (Option.some.inj hnames))
    refine ⟨line, ts, hline, hread, hkeys, ?_⟩
    rw [hkeys]
    decide

end Broker
end Brokerage
