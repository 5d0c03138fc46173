/-
# Records are read back from their members

A record that is written as an object has one member for each field that is given and
none for a field that is left out (`Fills`), and no field takes the member of a later one
(`Form.distinct`). So the members are read back as the record (`Fills.ofMembers`), and
beside the fields of another record in the same object as well (`readBeside_of_fills`). The
same holds of the values that the fields have: whole numbers, lists, tables, and what may
be absent.

A reader is plain if it never finds fault with an order. A record of plain fields is read
in this way (`Form.Plain.read`), so a faulty order is found only where orders are made.

Key definitions: `Form.names`, `Form.knows`, `Form.distinct`, `Fills`, `Plain`,
`Form.Plain`, `ReadsBack`.
Key theorems: `Fills.ofMembers`, `readBeside_of_fills`, `Form.Plain.read`, `parse_render`,
`natural_whole`, `integer_whole`, `list_of_items`, `table_of_entries`.
-/
import Brokerage.Proofs.JsonText
import Brokerage.Proofs.Table
import Brokerage.Proofs.Whole
import Brokerage.Wire.Session

namespace Brokerage
namespace Wire

open Json (Tree Member Value amountTree itemTrees memberTrees wholeNumeral)

namespace Form

/-! ### Names -/

/-- The names under which the fields are written. -/
def names : {β : Type} → Form β → List String
  | _, .one field => [field.name]
  | _, .both first second => first.names ++ second.names

/-- Some field answers to the name. -/
def knows : {β : Type} → Form β → String → Bool
  | _, .one field, name => field.answersTo name
  | _, .both first second, name => first.knows name || second.knows name

/-- No field answers to the name of a later one. -/
def distinct : {β : Type} → Form β → Bool
  | _, .one _ => true
  | _, .both first second =>
    first.distinct && second.distinct && second.names.all fun name => !first.knows name

theorem answersTo_name {β : Type} (field : Field β) : field.answersTo field.name = true := by
  simp [Field.answersTo]

theorem knows_names : ∀ {β : Type} (f : Form β), ∀ name ∈ f.names, f.knows name = true
  | _, .one field, name, h => by
    rw [List.mem_singleton.mp h]
    exact answersTo_name field
  | _, .both first second, name, h => by
    rw [knows, Bool.or_eq_true]
    exact (List.mem_append.mp h).imp (knows_names first name) (knows_names second name)

/-- A form takes the members whose names it knows. -/
theorem isSome_offer : ∀ {β : Type} (f : Form β) (name : String) (value : Tree) (slots : f.Slots),
    (f.offer name value slots).isSome = f.knows name
  | _, .one field, name, value, slot => by
    unfold offer knows
    cases field.answersTo name with
    | false => rfl
    | true => cases slot <;> rfl
  | _, .both first second, name, value, slots => by
    obtain ⟨s, t⟩ : first.Slots × second.Slots := slots
    have hfirst := isSome_offer first name value s
    have hsecond := isSome_offer second name value t
    rw [knows, ← hfirst, ← hsecond, offer]
    cases first.offer name value s <;> simp

/-! ### Entering members -/

theorem enter_append {β : Type} (f : Form β) (ns : List Member) :
    ∀ (ms : List Member) (slots : f.Slots),
      f.enter (ms ++ ns) slots = f.enter ms slots >>= f.enter ns
  | [], slots => rfl
  | (none, _) :: ms, slots => rfl
  | (some name, value) :: ms, slots => by
    rw [List.cons_append, enter, enter]
    cases f.offer name value slots with
    | none =>
      by_cases hsound : value.sound = true
      · simp only [if_pos hsound]
        exact enter_append f ns ms slots
      · simp only [if_neg hsound]
        rfl
    | some entered =>
      cases entered with
      | error fault => rfl
      | ok slots => exact enter_append f ns ms slots

variable {β γ : Type} (first : Form β) (second : Form γ)

/-- Members that the first of two forms knows go to it. -/
theorem enter_first : ∀ (ms : List Member) (s : first.Slots) (t : second.Slots),
    (∀ m ∈ ms, ∃ name, m.1 = some name ∧ first.knows name = true) →
    (Form.both first second).enter ms (s, t) = (first.enter ms s).map fun s => (s, t)
  | [], s, t, _ => rfl
  | (name?, value) :: ms, s, t, h => by
    obtain ⟨⟨name, hname, hknows⟩, hms⟩ := List.forall_mem_cons.mp h
    obtain rfl : name? = some name := hname
    have htaken := isSome_offer first name value s
    rw [hknows] at htaken
    obtain ⟨entered, hoffer⟩ := Option.isSome_iff_exists.mp htaken
    rw [enter, enter, offer]
    simp only [hoffer]
    cases entered with
    | error fault => rfl
    | ok s => exact enter_first ms s t hms

/-- Members that the first of two forms does not know go to the second. -/
theorem enter_second : ∀ (ms : List Member) (s : first.Slots) (t : second.Slots),
    (∀ m ∈ ms, ∃ name, m.1 = some name ∧ first.knows name = false) →
    (Form.both first second).enter ms (s, t) = (second.enter ms t).map fun t => (s, t)
  | [], s, t, _ => rfl
  | (name?, value) :: ms, s, t, h => by
    obtain ⟨⟨name, hname, hknows⟩, hms⟩ := List.forall_mem_cons.mp h
    obtain rfl : name? = some name := hname
    have hpassed := isSome_offer first name value s
    rw [hknows] at hpassed
    have hoffer : first.offer name value s = none := by simpa using hpassed
    rw [enter, enter, offer]
    simp only [hoffer]
    cases second.offer name value t with
    | none =>
      by_cases hsound : value.sound = true
      · simp only [Option.map_none, if_pos hsound]
        exact enter_second ms s t hms
      · simp only [Option.map_none, if_neg hsound]
        rfl
    | some entered =>
      cases entered with
      | error fault => rfl
      | ok t => exact enter_second ms s t hms

end Form

/-! ### Members of a record -/

/-- The members tell the record: one for every field that is given, in the order of the
fields, and none for a field that is left out. -/
inductive Fills : {β : Type} → Form β → List Member → β → Prop
  | given {β : Type} {field : Field β} {t : Tree} {b : β} (h : field.read t = .ok b) :
    Fills (.one field) [(some field.name, t)] b
  | omitted {β : Type} {field : Field β} {b : β} (h : field.absent = some b) :
    Fills (.one field) [] b
  | both {β γ : Type} {first : Form β} {second : Form γ} {ms ns : List Member} {b : β} {c : γ}
    (hfirst : Fills first ms b) (hsecond : Fills second ns c) :
    Fills (.both first second) (ms ++ ns) (b, c)

namespace Fills

variable {β γ : Type} {f : Form β} {field : Field β} {rest : Form γ} {ms ns : List Member}
  {t : Tree} {b : β} {c : γ}

/-- The members have names of fields. -/
theorem names (h : Fills f ms b) : ∀ m ∈ ms, ∃ name, m.1 = some name ∧ name ∈ f.names := by
  induction h with
  | given _ => simp [Form.names]
  | omitted _ => simp
  | both _ _ hfirst hsecond =>
    intro m hm
    rw [Form.names]
    rcases List.mem_append.mp hm with hm | hm
    · obtain ⟨name, hname, hmem⟩ := hfirst m hm
      exact ⟨name, hname, List.mem_append_left _ hmem⟩
    · obtain ⟨name, hname, hmem⟩ := hsecond m hm
      exact ⟨name, hname, List.mem_append_right _ hmem⟩

/-- The members fill the slots of the form, and what is in the slots makes the record. -/
theorem enter (h : Fills f ms b) (hf : f.distinct = true) :
    ∃ slots, f.enter ms f.blank = .ok slots ∧ f.finish slots = .ok b := by
  induction h with
  | @given β field t b h =>
    refine ⟨some b, ?_, rfl⟩
    have hoffer : (Form.one field).offer field.name t none = some (.ok (some b)) := by
      unfold Form.offer
      rw [if_pos (Form.answersTo_name field), h]
      rfl
    rw [Form.enter, Form.blank, hoffer]
    rfl
  | @omitted β field b h =>
    refine ⟨none, rfl, ?_⟩
    rw [Form.finish, h]
    rfl
  | @both β γ first second ms ns b c hfirst hsecond ihfirst ihsecond =>
    rw [Form.distinct, Bool.and_eq_true, Bool.and_eq_true, List.all_eq_true] at hf
    obtain ⟨⟨hfirstDistinct, hsecondDistinct⟩, hothers⟩ := hf
    obtain ⟨s, henterFirst, hfinishFirst⟩ := ihfirst hfirstDistinct
    obtain ⟨t, henterSecond, hfinishSecond⟩ := ihsecond hsecondDistinct
    have hknown : ∀ m ∈ ms, ∃ name, m.1 = some name ∧ first.knows name = true := fun m hm => by
      obtain ⟨name, hname, hmem⟩ := hfirst.names m hm
      exact ⟨name, hname, first.knows_names name hmem⟩
    have hunknown : ∀ m ∈ ns, ∃ name, m.1 = some name ∧ first.knows name = false := fun m hm => by
      obtain ⟨name, hname, hmem⟩ := hsecond.names m hm
      exact ⟨name, hname, by simpa using hothers name hmem⟩
    refine ⟨(s, t), ?_, ?_⟩
    · rw [Form.enter_append, Form.blank, Form.enter_first first second ms _ _ hknown, henterFirst]
      show (Form.both first second).enter ns (s, second.blank) = _
      rw [Form.enter_second first second ns _ _ hunknown, henterSecond]
      rfl
    · rw [Form.finish]
      simp only [hfinishFirst, hfinishSecond]
      rfl

/-- **A record is read back from its members.** -/
theorem ofMembers (h : Fills f ms b) (hf : f.distinct = true) : f.ofMembers ms true = .ok b := by
  obtain ⟨slots, henter, hfinish⟩ := h.enter hf
  unfold Form.ofMembers
  rw [henter]
  exact hfinish

theorem read (h : Fills f ms b) (hf : f.distinct = true) :
    f.read (.object ms true) = .ok b :=
  h.ofMembers hf

/-- The first field is given. -/
theorem next (h : field.read t = .ok b) (hs : Fills rest ns c) :
    Fills (.both (.one field) rest) ((some field.name, t) :: ns) (b, c) :=
  .both (.given h) hs

end Fills

/-! ### Two records in one object -/

/-- Members that the form does not know, and that can be kept, are kept. -/
theorem Form.enterBeside_others {β : Type} (f : Form β) (levels : Nat) (slots : f.Slots) :
    ∀ ms : List Member,
      (∀ m ∈ ms, (∃ name, m.1 = some name ∧ f.knows name = false) ∧ m.2.strict levels = true) →
      f.enterBeside levels ms slots = .ok (slots, ms)
  | [], _ => rfl
  | (name?, value) :: ms, h => by
    obtain ⟨⟨⟨name, hname, hknows⟩, hstrict⟩, hms⟩ := List.forall_mem_cons.mp h
    obtain rfl : name? = some name := hname
    have hpassed := f.isSome_offer name value slots
    rw [hknows] at hpassed
    have hoffer : f.offer name value slots = none := by simpa using hpassed
    rw [enterBeside, hoffer]
    simp only [if_pos hstrict, Form.enterBeside_others f levels slots ms hms]
    rfl

/-- **A record is read back beside a field of another,** if that field comes first and takes
no member of the record. -/
theorem readBeside_of_fills {β γ : Type} {field : Field β} {guest : Form γ} {levels : Nat}
    {t : Tree} {ms : List Member} {b : β} {c : γ} (h : field.read t = .ok b)
    (hguest : Fills guest ms c) (hdistinct : (Form.both (.one field) guest).distinct = true)
    (hstrict : ∀ m ∈ ms, m.2.strict levels = true) :
    Form.readBeside (.one field) guest levels (.object ((some field.name, t) :: ms) true) =
      .ok (b, c) := by
  rw [Form.distinct, Bool.and_eq_true, Bool.and_eq_true, List.all_eq_true] at hdistinct
  obtain ⟨⟨-, hguestDistinct⟩, hothers⟩ := hdistinct
  have hunknown : ∀ m ∈ ms, ∃ name, m.1 = some name ∧
      (Form.one field).knows name = false := fun m hm => by
    obtain ⟨name, hname, hmem⟩ := hguest.names m hm
    exact ⟨name, hname, by simpa using hothers name hmem⟩
  have hoffer : (Form.one field).offer field.name t none = some (.ok (some b)) := by
    unfold Form.offer
    rw [if_pos (Form.answersTo_name field), h]
    rfl
  have hkept : (Form.one field).enterBeside levels ((some field.name, t) :: ms) none =
      .ok (some b, ms) := by
    rw [Form.enterBeside, hoffer]
    exact Form.enterBeside_others (.one field) levels (some b) ms fun m hm =>
      ⟨hunknown m hm, hstrict m hm⟩
  have hread := hguest.ofMembers hguestDistinct
  unfold Form.readBeside Form.blank
  simp only [hkept]
  show (do let c ← guest.ofMembers ms true; .ok (b, c) : Except Fault (β × γ)) = _
  rw [hread]
  rfl

/-! ### Faults of a record -/

/-- No fault of an order: what is complained of, if anything, is the message. -/
def Plain {β : Type} (r : Except Fault β) : Prop :=
  ∀ fault, r ≠ .error (.badOrder fault)

namespace Plain

variable {β γ : Type} {r : Except Fault β}

theorem ok (b : β) : Plain (.ok b : Except Fault β) :=
  nofun

theorem bind {f : β → Except Fault γ} (hr : Plain r) (hf : ∀ b, Plain (f b)) :
    Plain (r >>= f) := by
  intro fault
  cases r with
  | error other =>
    intro h
    cases h
    exact hr fault rfl
  | ok b => exact hf b fault

theorem map (hr : Plain r) (f : β → γ) : Plain (r.map f) := by
  intro fault
  cases r with
  | error other =>
    intro h
    cases h
    exact hr fault rfl
  | ok b => nofun

end Plain

namespace Form

/-- The readers of the fields find no fault with an order. -/
def Plain : {β : Type} → Form β → Prop
  | _, .one field => ∀ t, Wire.Plain (field.read t)
  | _, .both first second => first.Plain ∧ second.Plain

theorem Plain.offer : ∀ {β : Type} {f : Form β}, f.Plain → ∀ (name : String) (value : Tree)
    (slots : f.Slots) (entered : Except Fault f.Slots),
    f.offer name value slots = some entered → Wire.Plain entered
  | _, .one field, hf, name, value, slot, entered, h => by
    unfold Form.offer at h
    split at h
    · cases slot with
      | some b =>
        cases h
        nofun
      | none =>
        cases h
        exact (hf value).map some
    · cases h
  | _, .both first second, hf, name, value, slots, entered, h => by
    obtain ⟨s, t⟩ : first.Slots × second.Slots := slots
    unfold Form.offer at h
    simp only at h
    split at h
    · rename_i taken hfirst
      cases h
      exact (Plain.offer hf.1 name value s taken hfirst).map _
    · obtain ⟨taken, hsecond, rfl⟩ := Option.map_eq_some_iff.mp h
      exact (Plain.offer hf.2 name value t taken hsecond).map _

variable {β : Type} {f : Form β}

theorem Plain.enter (hf : f.Plain) : ∀ (ms : List Member) (slots : f.Slots),
    Wire.Plain (f.enter ms slots)
  | [], slots => nofun
  | (none, _) :: _, slots => nofun
  | (some name, value) :: ms, slots => by
    unfold Form.enter
    split
    · exact Plain.enter hf ms _
    · rename_i fault hoffer
      exact hf.offer name value slots (.error fault) hoffer
    · split
      · exact Plain.enter hf ms slots
      · nofun

theorem plain_finish : ∀ {β : Type} (f : Form β) (slots : f.Slots), Wire.Plain (f.finish slots)
  | _, .one field, slot => by
    unfold Form.finish
    split <;> nofun
  | _, .both first second, slots => by
    obtain ⟨s, t⟩ : first.Slots × second.Slots := slots
    exact (plain_finish first s).bind fun b => (plain_finish second t).bind fun c => .ok (b, c)

theorem Plain.lineUp : ∀ {β : Type} {f : Form β}, f.Plain → ∀ (closed : Bool) (ts : List Tree),
    Wire.Plain (f.lineUp closed ts)
  | _, .one field, hf, closed, t :: ts => (hf t).map _
  | _, .one field, hf, closed, [] => by
    unfold Form.lineUp
    split <;> nofun
  | _, .both first second, hf, closed, ts =>
    (Plain.lineUp hf.1 closed ts).bind fun (b, ts) =>
      (Plain.lineUp hf.2 closed ts).bind fun (c, ts) => .ok ((b, c), ts)

/-- **A record has no faults but those of its fields.** -/
theorem Plain.read (hf : f.Plain) (t : Tree) : Wire.Plain (f.read t) := by
  unfold Form.read
  split
  · rename_i ms closed
    refine (hf.enter ms f.blank).bind fun slots => ?_
    cases closed with
    | true => exact f.plain_finish slots
    | false => nofun
  · rename_i ts closed
    refine (hf.lineUp closed ts).bind fun (b, rest) => ?_
    show Wire.Plain (if closed && rest.isEmpty then .ok b else .error .unreadable)
    split <;> nofun
  · nofun

end Form

/-! ### Single values -/

/-- **The text of a value is read as its tree is.** -/
theorem parse_render {β : Type} (read : Reader β) (v : Value) :
    parse read v.render = read v.tree := by
  unfold parse
  rw [Json.read_tree]
  show (read v.tree >>= fun b => .ok b) = _
  cases read v.tree <;> rfl

/-- A text is taken if its tree is and nothing stands behind it. -/
theorem parse_ok_iff {β : Type} {read : Reader β} {s : String} {b : β} :
    parse read s = .ok b ↔ read (Json.read s).1 = .ok b ∧ (Json.read s).2 = true := by
  show (read (Json.read s).1 >>= fun b => if (Json.read s).2 then .ok b else .error .unreadable) =
    .ok b ↔ _
  cases read (Json.read s).1 with
  | error fault => exact ⟨nofun, nofun⟩
  | ok c => cases (Json.read s).2 <;> simp [Bind.bind, Except.bind]

/-- The fault of an order does not depend on what stands behind it. -/
theorem parse_badOrder_iff {β : Type} {read : Reader β} {s : String} {fault : OrderFault Float} :
    parse read s = .error (.badOrder fault) ↔
      read (Json.read s).1 = .error (.badOrder fault) := by
  show (read (Json.read s).1 >>= fun b => if (Json.read s).2 then .ok b else .error .unreadable) =
    .error (.badOrder fault) ↔ _
  cases read (Json.read s).1 with
  | error other => simp [Bind.bind, Except.bind]
  | ok c => cases (Json.read s).2 <;> simp [Bind.bind, Except.bind]

section Numbers

open Decimal (Numeral ofDigits takeWhole)

theorem natural_whole (k : UInt64) : natural (.number (wholeNumeral k.toNat)) = .ok k := by
  have hvalue : ofDigits (wholeNumeral k.toNat).whole = k.toNat :=
    Json.ofDigits_toDigits _
  have hnatural : (wholeNumeral k.toNat).natural? = some k.toNat := by
    unfold Numeral.natural?
    rw [hvalue, if_pos]
    simp [wholeNumeral, k.toNat_lt]
  simp [natural, hnatural]

theorem integer_whole (k : Int64) : integer (.number (wholeNumeral k.toInt)) = .ok k := by
  have hvalue : ofDigits (wholeNumeral k.toInt).whole = k.toInt.natAbs :=
    Json.ofDigits_toDigits _
  have hinteger : (wholeNumeral k.toInt).integer? = some k.toInt := by
    have hlow : Int64.minValue.toInt ≤ k.toInt := k.minValue_le_toInt
    have hhigh : k.toInt ≤ Int64.maxValue.toInt := k.toInt_le
    unfold Numeral.integer?
    simp only [hvalue]
    rw [if_neg (by simp [wholeNumeral])]
    by_cases hneg : k.toInt < 0
    · rw [if_pos (by simpa [wholeNumeral] using hneg)]
      have hminus : -(k.toInt.natAbs : ℤ) = k.toInt := by omega
      rw [hminus, if_pos]
      simp only [Bool.and_eq_true, bne_iff_ne, decide_eq_true_eq]
      omega
    · rw [if_neg (by simpa [wholeNumeral] using hneg)]
      have hplus : (k.toInt.natAbs : ℤ) = k.toInt := by omega
      rw [hplus, if_pos hhigh]
  simp [integer, hinteger]

/-- Digits only add to the number that they follow. -/
theorem le_foldl_digits : ∀ (ds : List Nat) (n : Nat), n ≤ ds.foldl (fun n d => 10 * n + d) n
  | [], n => le_refl n
  | d :: ds, n =>
    calc n ≤ 10 * n + d := by omega
      _ ≤ _ := le_foldl_digits ds (10 * n + d)

/-- A whole number that fits a word is taken as it is. -/
theorem takeWhole_fits : ∀ (ds : List Nat) (n : Nat),
    ds.foldl (fun n d => 10 * n + d) n < UInt64.size →
    takeWhole n ds = (ds.foldl (fun n d => 10 * n + d) n, 0)
  | [], n, _ => rfl
  | d :: ds, n, h => by
    have hfits : 10 * n + d < UInt64.size := (le_foldl_digits ds _).trans_lt h
    rw [takeWhole, if_pos hfits]
    exact takeWhole_fits ds (10 * n + d) h

/-- A whole number that fits a word is in the range of the amounts. -/
theorem isSome_quick?_whole {k : ℤ} (h : k.natAbs < 2 ^ 64) :
    (wholeNumeral k).quick?.isSome = true := by
  have hvalue : ofDigits (wholeNumeral k).whole = k.natAbs :=
    Json.ofDigits_toDigits _
  have hwhole : takeWhole 0 (wholeNumeral k).whole = (k.natAbs, 0) := by
    have hfits := takeWhole_fits (wholeNumeral k).whole 0
    have hfold : (wholeNumeral k).whole.foldl (fun n d => 10 * n + d) 0 = k.natAbs := hvalue
    rw [hfold] at hfits
    exact hfits h
  have hfinite : (Float.ofScientific k.natAbs false 0 * Decimal.powerOfTen 0).isFinite = true :=
    Double.isFinite_mul_unit (Double.isFinite_ofScientific h) rfl
  unfold Numeral.quick?
  rw [hwhole]
  show ((Decimal.shifted (Float.ofScientific k.natAbs false 0) 0).map _).isSome = true
  unfold Decimal.shifted
  rw [if_pos (le_refl 0), if_pos (by decide)]
  show (Option.map _ (if (Float.ofScientific k.natAbs false 0 * Decimal.powerOfTen 0).isFinite
    then some _ else none)).isSome = true
  rw [if_pos hfinite]
  rfl

theorem strict_whole {k : ℤ} (h : k.natAbs < 2 ^ 64) (levels : ℕ) :
    (Tree.number (wholeNumeral k)).strict levels = true := by
  cases levels <;> exact isSome_quick?_whole h

end Numbers

theorem orderId_toJson (id : OrderId) : orderId id.toJson.tree = .ok id := by
  show (natural (.number (wholeNumeral id.value.toNat))).map OrderId.mk = .ok id
  rw [natural_whole]
  rfl

theorem sessionId_toJson (id : SessionId) : sessionId id.toJson.tree = .ok id := by
  show (natural (.number (wholeNumeral id.value.toNat))).map SessionId.mk = .ok id
  rw [natural_whole]
  rfl

/-- The amount is read back from its text. This is so of an amount whose numeral is read in
one exact step; `Numeral.quick?` rounds where there are more. -/
def ReadsBack (x : Float) : Prop :=
  parse amount (Json.renderAmount x) = .ok x

namespace ReadsBack

variable {x : Float}

theorem amount (h : ReadsBack x) : amount (amountTree x) = .ok x := by
  have hparse := parse_render Wire.amount (.amount x)
  exact hparse.symm.trans h

/-- There is no text for an amount that is not finite. -/
theorem isFinite (h : ReadsBack x) : x.isFinite = true := by
  by_contra hx
  have hnull : Json.renderAmount x = "null" := if_neg hx
  unfold ReadsBack at h
  rw [hnull] at h
  cases h

/-- The numeral of the amount can be kept. -/
theorem strict (h : ReadsBack x) (levels : ℕ) : (amountTree x).strict levels = true := by
  have hread := h.amount
  unfold Wire.amount at hread
  split at hread
  · rename_i n hn
    rw [hn]
    cases hquick : n.quick? with
    | none =>
      rw [hquick] at hread
      cases hread
    | some y => cases levels <;> simp [Tree.strict, hquick]
  · cases hread

end ReadsBack

theorem orderKind_name (source : Source) (kind : OrderKind) :
    orderKind source (.text (some kind.name)) = .ok kind := by
  cases kind <;> rfl

theorem executionKind_name (kind : ExecutionKind) :
    executionKind (.text (some kind.name)) = .ok kind := by
  cases kind <;> rfl

theorem nullable_some {β : Type} {read : Reader β} {t : Tree} {b : β} (h : read t = .ok b)
    (hnull : read .null ≠ .ok b) : nullable read t = .ok (some b) := by
  unfold nullable
  split
  · exact absurd h hnull
  · rw [h]
    rfl

/-! ### Lists and tables -/

theorem readAll_items {β : Type} {read : Reader β} {write : β → Value} : ∀ bs : List β,
    (∀ b ∈ bs, read (write b).tree = .ok b) → readAll read (itemTrees (bs.map write)) = .ok bs
  | [], _ => rfl
  | b :: bs, h => by
    obtain ⟨hb, hbs⟩ := List.forall_mem_cons.mp h
    rw [List.map_cons, itemTrees, readAll, hb, readAll_items bs hbs]
    rfl

/-- **A list is read back if its items are.** -/
theorem list_of_items {β : Type} {read : Reader β} {write : β → Value} {bs : List β}
    (h : ∀ b ∈ bs, read (write b).tree = .ok b) :
    list read (Value.array (bs.map write)).tree = .ok bs := by
  show (readAll read (itemTrees (bs.map write)) >>= fun bs => .ok bs) = .ok bs
  rw [readAll_items bs h]
  rfl

theorem enterAll_entries {β : Type} {read : Reader β} {write : β → Value} :
    ∀ (es before : List (Symbol × β)),
      (∀ e ∈ es, read (write e.2).tree = .ok e.2) → ((before ++ es).map (·.1)).Nodup →
      enterAll read (memberTrees (es.map fun e => (e.1.name, write e.2))) ⟨before⟩ =
        .ok ⟨before ++ es⟩
  | [], before, _, _ => by
    rw [List.append_nil]
    rfl
  | (key, b) :: es, before, h, hkeys => by
    obtain ⟨hb, hes⟩ := List.forall_mem_cons.mp h
    have hfresh : key ∉ before.map (·.1) := by
      rw [List.map_append, List.map_cons] at hkeys
      exact fun hmem => (List.nodup_append.mp hkeys).2.2 key hmem key List.mem_cons_self rfl
    have hentered : (⟨before⟩ : Table Symbol β).insert key b = ⟨before ++ [(key, b)]⟩ :=
      congrArg Table.mk (Table.put_fresh key b hfresh)
    have hrest : before ++ (key, b) :: es = before ++ [(key, b)] ++ es := by simp
    rw [hrest] at hkeys ⊢
    rw [List.map_cons, memberTrees, enterAll, hb]
    show enterAll read _ ((⟨before⟩ : Table Symbol β).insert key b) = _
    rw [hentered]
    exact enterAll_entries es (before ++ [(key, b)]) hes hkeys

/-- **A table is read back if its values are** and no key stands in it twice. -/
theorem table_of_entries {β : Type} {read : Reader β} {write : β → Value} {t : Table Symbol β}
    (h : ∀ e ∈ t.entries, read (write e.2).tree = .ok e.2)
    (hkeys : t.Distinct) : table read (tableJson write t).tree = .ok t := by
  have henter := enterAll_entries t.entries [] h hkeys
  show (enterAll read (memberTrees (t.entries.map fun e => (e.1.name, write e.2))) ⟨[]⟩ >>=
    fun es => .ok es) = _
  rw [henter]
  rfl

end Wire
end Brokerage
