/-
# A record is told by its members

Members are entered one by one, in the order of the text. What comes of it can be told of
each field by itself: of the members that go by its names there is none, and then the field
has its value without them, or there is one, and then it can be read (`Form.Told`). So a
record is read from the members of an object exactly if they tell it, and if all names can
be read and all other values are in order (`Form.ofMembers_iff`). The same holds of two
records in one object, although the second is read from what the first leaves
(`Form.readBeside_iff`). The order of the members plays no part (`Form.Told.perm`).

Key definitions: `Field.keys`, `Form.keys`, `Field.takes`, `Form.takes`, `Form.Entered`,
`Form.Told`, `Form.Readable`.
Key theorems: `Form.enter_iff`, `Form.told_iff`, `Form.ofMembers_iff`,
`Form.readBeside_iff`, `Form.told_congr`, `Form.Told.perm`.
-/
import Brokerage.Proofs.Forms

namespace Brokerage
namespace Wire

open Json (Tree Member)

section

variable {φ β γ : Type}

/-- A value comes of two steps if the second makes it of what the first gives. -/
theorem bind_ok_iff {x : Except φ β} {f : β → Except φ γ} {c : γ} :
    (x >>= f) = .ok c ↔ ∃ b, x = .ok b ∧ f b = .ok c := by
  cases x <;> simp [Bind.bind, Except.bind]

theorem map_ok_iff {x : Except φ β} {f : β → γ} {c : γ} :
    x.map f = .ok c ↔ ∃ b, x = .ok b ∧ f b = c := by
  cases x <;> simp [Except.map]

end

/-! ### Names -/

namespace Field

variable {β : Type} (field : Field β)

/-- The names that the field goes by. -/
def keys : List String :=
  field.name :: field.alias?.toList

theorem answersTo_iff (name : String) : field.answersTo name = true ↔ name ∈ field.keys := by
  unfold answersTo keys
  rw [Bool.or_eq_true, beq_iff_eq, beq_iff_eq, List.mem_cons, Option.mem_toList]
  exact or_congr_left eq_comm

/-- The member goes by a name of the field. -/
def takes (m : Member) : Bool :=
  m.1.any field.answersTo

end Field

namespace Form

/-- The names that the fields go by. -/
def keys : {β : Type} → Form β → List String
  | _, .one field => field.keys
  | _, .both first second => first.keys ++ second.keys

theorem knows_iff : ∀ {β : Type} (f : Form β) (name : String),
    f.knows name = true ↔ name ∈ f.keys
  | _, .one field, name => field.answersTo_iff name
  | _, .both first second, name => by
    rw [knows, keys, Bool.or_eq_true, List.mem_append, knows_iff first, knows_iff second]

/-- The member goes by a name of some field. -/
def takes {β : Type} (f : Form β) (m : Member) : Bool :=
  m.1.any f.knows

theorem takes_both {β γ : Type} (first : Form β) (second : Form γ) (m : Member) :
    (Form.both first second).takes m = (first.takes m || second.takes m) := by
  cases hm : m.1 <;> simp [takes, hm, knows]

/-- Where no name stands twice, a member that one form takes another leaves. -/
theorem takes_apart {β γ : Type} {first : Form β} {second : Form γ}
    (h : (first.keys ++ second.keys).Nodup) {m : Member} (hm : first.takes m = true) :
    second.takes m = false := by
  obtain ⟨-, -, hapart⟩ := List.nodup_append.mp h
  obtain ⟨name?, value⟩ := m
  cases name? with
  | none => rfl
  | some name =>
    refine Bool.eq_false_iff.mpr fun hsecond => ?_
    exact hapart name ((first.knows_iff name).mp hm) name ((second.knows_iff name).mp hsecond) rfl

/-! ### Members that are entered -/

/-- What entering the members makes of the slots: a slot stays as it is if no member goes
by the names of its field, and it is filled if there is one, which can be read, and it was
not filled before. -/
def Entered : {β : Type} → (f : Form β) → List Member → f.Slots → f.Slots → Prop
  | _, .one field, ms, slot, filled =>
    match ms.filter field.takes with
    | [] => filled = slot
    | [m] => slot = none ∧ (field.read m.2).map some = .ok filled
    | _ => False
  | _, .both first second, ms, slots, filled =>
    let (s, t) : first.Slots × second.Slots := slots
    let (s', t') : first.Slots × second.Slots := filled
    first.Entered ms s s' ∧ second.Entered ms t t'

theorem entered_nil : ∀ {β : Type} (f : Form β) (slots filled : f.Slots),
    f.Entered [] slots filled ↔ filled = slots
  | _, .one field, slot, filled => Iff.rfl
  | _, .both first second, slots, filled => by
    obtain ⟨s, t⟩ : first.Slots × second.Slots := slots
    obtain ⟨s', t'⟩ : first.Slots × second.Slots := filled
    rw [Entered]
    simp only [entered_nil first, entered_nil second]
    exact Prod.mk.injEq .. ▸ Iff.rfl

/-- A member that no field takes makes no difference. -/
theorem entered_passed {m : Member} (ms : List Member) : ∀ {β : Type} {f : Form β},
    f.takes m = false → ∀ slots filled : f.Slots,
      f.Entered (m :: ms) slots filled ↔ f.Entered ms slots filled
  | _, .one field, h, slot, filled => by
    have hpassed : field.takes m = false := h
    rw [Entered, Entered, List.filter_cons_of_neg (by simp [hpassed])]
  | _, .both first second, h, slots, filled => by
    obtain ⟨s, t⟩ : first.Slots × second.Slots := slots
    obtain ⟨s', t'⟩ : first.Slots × second.Slots := filled
    rw [takes_both, Bool.or_eq_false_iff] at h
    rw [Entered, Entered]
    simp only [entered_passed ms h.1, entered_passed ms h.2]

theorem takes_of_offer {β : Type} {f : Form β} {name : String} {value : Tree} {slots : f.Slots}
    {entered : Except Fault f.Slots} (h : f.offer name value slots = some entered) :
    f.takes (some name, value) = true := by
  show f.knows name = true
  rw [← f.isSome_offer name value slots, h]
  rfl

theorem passed_of_offer {β : Type} {f : Form β} {name : String} {value : Tree} {slots : f.Slots}
    (h : f.offer name value slots = none) : f.takes (some name, value) = false := by
  show f.knows name = false
  rw [← f.isSome_offer name value slots, h]
  rfl

/-- A member that is taken fills its slot, and the members behind it go on from there. -/
theorem entered_offer {name : String} {value : Tree} (ms : List Member) :
    ∀ {β : Type} {f : Form β}, f.keys.Nodup → ∀ {slots next : f.Slots},
      f.offer name value slots = some (.ok next) → ∀ filled : f.Slots,
        f.Entered ((some name, value) :: ms) slots filled ↔ f.Entered ms next filled
  | _, .one field, _, slot, next, h, filled => by
    have htaken : field.takes (some name, value) = true := takes_of_offer h
    have hname : field.answersTo name = true := htaken
    unfold offer at h
    rw [if_pos hname] at h
    rw [Entered, Entered, List.filter_cons_of_pos htaken]
    cases slot with
    | some b => cases h
    | none =>
      cases hread : field.read value with
      | error fault =>
        rw [hread] at h
        cases h
      | ok b =>
        rw [hread] at h
        cases h
        cases ms.filter field.takes with
        | nil => simp [hread, Except.map, eq_comm]
        | cons m rest => cases rest <;> simp
  | _, .both first second, hkeys, slots, next, h, filled => by
    obtain ⟨hfirst, hsecond, -⟩ := List.nodup_append.mp hkeys
    obtain ⟨s, t⟩ : first.Slots × second.Slots := slots
    obtain ⟨s', t'⟩ : first.Slots × second.Slots := filled
    rw [offer] at h
    cases hs : first.offer name value s with
    | some entered =>
      rw [hs] at h
      cases entered with
      | error fault => cases h
      | ok u =>
        cases h
        have hpassed := takes_apart hkeys (takes_of_offer hs)
        rw [Entered, Entered]
        simp only [entered_offer ms hfirst hs, entered_passed ms hpassed]
    | none =>
      rw [hs] at h
      obtain ⟨entered, ht, hnext⟩ := Option.map_eq_some_iff.mp h
      cases entered with
      | error fault => cases hnext
      | ok u =>
        cases hnext
        rw [Entered, Entered]
        simp only [entered_offer ms hsecond ht, entered_passed ms (passed_of_offer hs)]

/-- A member with which its field finds fault is not entered. -/
theorem not_entered {name : String} {value : Tree} (ms : List Member) :
    ∀ {β : Type} {f : Form β} {slots : f.Slots} {fault : Fault},
      f.offer name value slots = some (.error fault) → ∀ filled : f.Slots,
        ¬ f.Entered ((some name, value) :: ms) slots filled
  | _, .one field, slot, fault, h, filled => by
    have htaken : field.takes (some name, value) = true := takes_of_offer h
    have hname : field.answersTo name = true := htaken
    unfold offer at h
    rw [if_pos hname] at h
    rw [Entered, List.filter_cons_of_pos htaken]
    cases slot with
    | some b => cases ms.filter field.takes <;> simp
    | none =>
      cases hread : field.read value with
      | error other => cases ms.filter field.takes <;> simp [hread, Except.map]
      | ok b =>
        rw [hread] at h
        cases h
  | _, .both first second, slots, fault, h, filled => by
    obtain ⟨s, t⟩ : first.Slots × second.Slots := slots
    obtain ⟨s', t'⟩ : first.Slots × second.Slots := filled
    rw [Entered]
    rintro ⟨hs', ht'⟩
    rw [offer] at h
    cases hs : first.offer name value s with
    | some entered =>
      rw [hs] at h
      cases entered with
      | error other => exact not_entered ms hs s' hs'
      | ok u => cases h
    | none =>
      rw [hs] at h
      obtain ⟨entered, ht, hnext⟩ := Option.map_eq_some_iff.mp h
      cases entered with
      | error other => exact not_entered ms ht t' ht'
      | ok u => cases hnext

/-- All names can be read, and the values of members that no field takes are in order. -/
def Readable {β : Type} (f : Form β) (inOrder : Tree → Bool) (ms : List Member) : Prop :=
  ∀ m ∈ ms, m.1.isSome = true ∧ (f.takes m = false → inOrder m.2 = true)

section

variable {β : Type} {f : Form β}

theorem readable_cons {inOrder : Tree → Bool} {name : String} {value : Tree} {ms : List Member} :
    f.Readable inOrder ((some name, value) :: ms) ↔
      (f.takes (some name, value) = false → inOrder value = true) ∧ f.Readable inOrder ms := by
  unfold Readable
  rw [List.forall_mem_cons]
  simp

/-- **Entering members** one by one comes to what they make of each slot. -/
theorem enter_iff (hkeys : f.keys.Nodup) : ∀ (ms : List Member) (slots filled : f.Slots),
    f.enter ms slots = .ok filled ↔ f.Readable Tree.sound ms ∧ f.Entered ms slots filled
  | [], slots, filled => by
    rw [enter, entered_nil]
    refine ⟨fun h => ⟨fun m hm => ?_, (Except.ok.inj h).symm⟩, fun h => congrArg _ h.2.symm⟩
    cases hm
  | (none, value) :: ms, slots, filled => by
    rw [enter]
    constructor
    · intro h
      cases h
    · intro h
      cases (h.1 _ List.mem_cons_self).1
  | (some name, value) :: ms, slots, filled => by
    rw [enter, readable_cons]
    cases hoffer : f.offer name value slots with
    | some entered =>
      have htaken := takes_of_offer hoffer
      cases entered with
      | error fault =>
        refine ⟨fun h => ?_, fun h => absurd h.2 (not_entered ms hoffer filled)⟩
        cases h
      | ok next =>
        simp only [enter_iff hkeys ms next filled, entered_offer ms hkeys hoffer, htaken]
        simp
    | none =>
      have hpassed := passed_of_offer hoffer
      simp only [entered_passed ms hpassed, hpassed, true_imp_iff]
      cases hsound : value.sound with
      | true =>
        rw [if_pos rfl, enter_iff hkeys ms slots filled]
        simp
      | false =>
        refine iff_of_false (fun h => ?_) (by simp)
        cases h

/-- Beside another record the members that are not taken are kept as well. -/
theorem enterBeside_iff (hkeys : f.keys.Nodup) (levels : ℕ) :
    ∀ (ms kept : List Member) (slots filled : f.Slots),
      f.enterBeside levels ms slots = .ok (filled, kept) ↔
        f.Readable (·.strict levels) ms ∧ f.Entered ms slots filled ∧
          kept = ms.filter fun m => !f.takes m
  | [], kept, slots, filled => by
    rw [enterBeside, entered_nil]
    constructor
    · intro h
      cases h
      refine ⟨fun m hm => ?_, rfl, rfl⟩
      cases hm
    · rintro ⟨-, rfl, rfl⟩
      rfl
  | (none, value) :: ms, kept, slots, filled => by
    rw [enterBeside]
    constructor
    · intro h
      cases h
    · intro h
      cases (h.1 _ List.mem_cons_self).1
  | (some name, value) :: ms, kept, slots, filled => by
    rw [enterBeside, readable_cons]
    cases hoffer : f.offer name value slots with
    | some entered =>
      have htaken := takes_of_offer hoffer
      cases entered with
      | error fault =>
        refine ⟨fun h => ?_, fun h => absurd h.2.1 (not_entered ms hoffer filled)⟩
        cases h
      | ok next =>
        rw [List.filter_cons_of_neg (by simp [htaken])]
        simp only [enterBeside_iff hkeys levels ms kept next filled,
          entered_offer ms hkeys hoffer, htaken]
        simp
    | none =>
      have hpassed := passed_of_offer hoffer
      rw [List.filter_cons_of_pos (by simp [hpassed])]
      simp only [entered_passed ms hpassed, hpassed, true_imp_iff]
      cases hstrict : value.strict levels with
      | false =>
        refine iff_of_false (fun h => ?_) (by simp)
        cases h
      | true =>
        have ih := fun rest => enterBeside_iff hkeys levels ms rest slots filled
        rw [if_pos rfl, map_ok_iff]
        constructor
        · rintro ⟨⟨next, rest⟩, hrest, hpair⟩
          cases hpair
          obtain ⟨hreadable, hentered, hkept⟩ := (ih rest).mp hrest
          exact ⟨⟨rfl, hreadable⟩, hentered, congrArg _ hkept⟩
        · rintro ⟨⟨-, hreadable⟩, hentered, rfl⟩
          exact ⟨_, (ih _).mpr ⟨hreadable, hentered, rfl⟩, rfl⟩

end

/-! ### Members that tell a record -/

/-- The members tell the record: of those that go by the names of a field there is none, and
the field has its value without them, or there is one, and it can be read. -/
def Told : {β : Type} → Form β → List Member → β → Prop
  | _, .one field, ms, b =>
    match ms.filter field.takes with
    | [] => field.absent = some b
    | [m] => field.read m.2 = .ok b
    | _ => False
  | _, .both first second, ms, (b, c) => first.Told ms b ∧ second.Told ms c

theorem told_iff (ms : List Member) : ∀ {β : Type} (f : Form β) (b : β),
    f.Told ms b ↔ ∃ slots, f.Entered ms f.blank slots ∧ f.finish slots = .ok b
  | _, .one field, b => by
    unfold Told Entered blank finish
    cases ms.filter field.takes with
    | nil =>
      simp only [exists_eq_left]
      cases field.absent <;> simp
    | cons m rest =>
      cases rest with
      | nil =>
        simp only [true_and]
        cases field.read m.2 with
        | error fault => simp [Except.map]
        | ok c => simp [Except.map]
      | cons n rest => simp
  | _, .both first second, (b, c) => by
    rw [Told, told_iff ms first, told_iff ms second]
    constructor
    · rintro ⟨⟨s, hs, hb⟩, t, ht, hc⟩
      refine ⟨(s, t), ⟨hs, ht⟩, ?_⟩
      rw [finish]
      simp only [hb, hc]
      rfl
    · rintro ⟨⟨s, t⟩, ⟨hs, ht⟩, h⟩
      rw [finish] at h
      obtain ⟨b', hb, h⟩ := bind_ok_iff.mp h
      obtain ⟨c', hc, h⟩ := bind_ok_iff.mp h
      cases h
      exact ⟨⟨s, hs, hb⟩, t, ht, hc⟩

/-- Only the members that are taken tell of a record. -/
theorem told_congr {ms ns : List Member} : ∀ {β : Type} {f : Form β},
    ms.filter f.takes = ns.filter f.takes → ∀ b, f.Told ms b ↔ f.Told ns b
  | _, .one field, h, b => by
    have htaken : ms.filter field.takes = ns.filter field.takes := h
    rw [Told, Told, htaken]
  | _, .both first second, h, (b, c) => by
    have hpart : ∀ {δ : Type} (f : Form δ),
        (∀ m, f.takes m = true → (Form.both first second).takes m = true) →
          ms.filter f.takes = ns.filter f.takes := by
      intro δ f hsub
      have hwithin : ∀ ks : List Member,
          ks.filter f.takes = (ks.filter (Form.both first second).takes).filter f.takes := by
        intro ks
        rw [List.filter_filter]
        refine List.filter_congr fun m _ => ?_
        cases hm : f.takes m with
        | false => rfl
        | true => rw [hsub m hm]; rfl
      rw [hwithin ms, hwithin ns, h]
    rw [Told, Told, told_congr (hpart first fun m hm => by rw [takes_both, hm]; rfl),
      told_congr (hpart second fun m hm => by rw [takes_both, hm, Bool.or_true])]

/-- **The order of the members plays no part.** -/
theorem Told.perm {ms ns : List Member} (h : ms.Perm ns) : ∀ {β : Type} {f : Form β} {b : β},
    f.Told ms b → f.Told ns b
  | _, .one field, b, htold => by
    have htaken := h.filter field.takes
    unfold Told at htold ⊢
    cases hms : ms.filter field.takes with
    | nil =>
      rw [hms] at htold htaken
      rw [List.nil_perm.mp htaken]
      exact htold
    | cons m rest =>
      cases rest with
      | nil =>
        rw [hms] at htold htaken
        rw [← List.singleton_perm.mp htaken]
        exact htold
      | cons n rest =>
        rw [hms] at htold
        exact htold.elim
  | _, .both first second, (b, c), htold => ⟨htold.1.perm h, htold.2.perm h⟩

section

variable {β γ : Type}

/-- **A record is read from its members** if they tell it, all names can be read and the
values of the other members break no rule. -/
theorem ofMembers_iff {f : Form β} (hkeys : f.keys.Nodup) {ms : List Member} {closed : Bool}
    {b : β} : f.ofMembers ms closed = .ok b ↔
      closed = true ∧ f.Readable Tree.sound ms ∧ f.Told ms b := by
  rw [told_iff]
  unfold ofMembers
  rw [bind_ok_iff]
  constructor
  · rintro ⟨slots, henter, hfinish⟩
    obtain ⟨hreadable, hentered⟩ := (enter_iff hkeys ms f.blank slots).mp henter
    cases closed with
    | false => cases hfinish
    | true => exact ⟨rfl, hreadable, slots, hentered, hfinish⟩
  · rintro ⟨rfl, hreadable, slots, hentered, hfinish⟩
    exact ⟨slots, (enter_iff hkeys ms f.blank slots).mpr ⟨hreadable, hentered⟩, hfinish⟩

end

end Form

/-! ### Values that can be kept -/

mutual

/-- What can be kept breaks no rule. -/
theorem sound_of_strict : ∀ {levels : ℕ} {t : Tree}, t.strict levels = true → t.sound = true
  | _, .null, _ | _, .bool _, _ | _, .number _, _ | _, .text _, _ => rfl
  | levels + 1, .array items closed, h => by
    rw [Tree.strict, Bool.and_eq_true] at h
    rw [Tree.sound, h.1, soundItems_of_strict h.2]
    rfl
  | levels + 1, .object members closed, h => by
    rw [Tree.strict, Bool.and_eq_true] at h
    rw [Tree.sound, h.1, soundMembers_of_strict h.2]
    rfl
  | 0, .array _ _, h | 0, .object _ _, h => by cases h
  | levels, .broken, h => by cases levels <;> cases h

theorem soundItems_of_strict : ∀ {levels : ℕ} {ts : List Tree},
    Json.strictItems levels ts = true → Json.soundItems ts = true
  | _, [], _ => rfl
  | levels, t :: ts, h => by
    rw [Json.strictItems, Bool.and_eq_true] at h
    rw [Json.soundItems, sound_of_strict h.1, soundItems_of_strict h.2]
    rfl

theorem soundMembers_of_strict : ∀ {levels : ℕ} {ms : List Member},
    Json.strictMembers levels ms = true → Json.soundMembers ms = true
  | _, [], _ => rfl
  | levels, (name, t) :: ms, h => by
    rw [Json.strictMembers, Bool.and_eq_true, Bool.and_eq_true] at h
    rw [Json.soundMembers, sound_of_strict h.1.2, soundMembers_of_strict h.2]
    rfl

end

namespace Form

variable {β γ : Type} {own : Form β} {guest : Form γ} {levels : ℕ} {ms : List Member}

/-- What a form leaves can be read as the members of another. -/
theorem Readable.kept (h : own.Readable (·.strict levels) ms) :
    guest.Readable Tree.sound (ms.filter fun m => !own.takes m) := by
  intro m hm
  obtain ⟨hmem, hleft⟩ := List.mem_filter.mp hm
  obtain ⟨hname, hstrict⟩ := h m hmem
  exact ⟨hname, fun _ => sound_of_strict (hstrict (by simpa using hleft))⟩

/-- **Two records are read from one object** if its members tell both, all names can be
read, and what the first leaves can be kept. -/
theorem readBeside_iff (hkeys : (own.keys ++ guest.keys).Nodup) {closed : Bool} {b : β} {c : γ} :
    readBeside own guest levels (.object ms closed) = .ok (b, c) ↔
      closed = true ∧ own.Readable (·.strict levels) ms ∧ own.Told ms b ∧ guest.Told ms c := by
  obtain ⟨hown, hguest, -⟩ := List.nodup_append.mp hkeys
  have hleft : (ms.filter fun m => !own.takes m).filter guest.takes = ms.filter guest.takes := by
    rw [List.filter_filter]
    refine List.filter_congr fun m _ => ?_
    cases htaken : own.takes m with
    | true => rw [takes_apart hkeys htaken]; rfl
    | false => exact Bool.and_true _
  rw [← told_congr hleft, told_iff ms own]
  unfold readBeside
  simp only [bind_ok_iff]
  constructor
  · rintro ⟨⟨slots, kept⟩, henter, h⟩
    obtain ⟨hreadable, hentered, rfl⟩ :=
      (enterBeside_iff hown levels ms kept own.blank slots).mp henter
    cases closed with
    | false => cases h
    | true =>
      obtain ⟨b', hfinish, h⟩ := bind_ok_iff.mp h
      obtain ⟨c', hread, h⟩ := bind_ok_iff.mp h
      cases h
      obtain ⟨-, -, htold⟩ := (ofMembers_iff hguest).mp hread
      exact ⟨rfl, hreadable, ⟨slots, hentered, hfinish⟩, htold⟩
  · rintro ⟨rfl, hreadable, ⟨slots, hentered, hfinish⟩, htold⟩
    have hread := (ofMembers_iff hguest).mpr ⟨rfl, hreadable.kept, htold⟩
    refine ⟨_, (enterBeside_iff hown levels ms _ own.blank slots).mpr
      ⟨hreadable, hentered, rfl⟩, ?_⟩
    exact bind_ok_iff.mpr ⟨b, hfinish, bind_ok_iff.mpr ⟨c, hread, rfl⟩⟩

end Form

end Wire
end Brokerage
