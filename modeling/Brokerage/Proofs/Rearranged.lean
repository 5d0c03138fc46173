/-
# What a decoder takes no notice of

A message is laid out in lists, in tables by symbol and in records, and a record knows some
names and no others (`Shape`). Its text can be edited where the layout gives no meaning to
what is there: the members of an object can stand in another order, and members that a
record does not know can come and go (`Edit`). A record is told by the members that it
knows, in any order; so its decoder takes no notice of such an edit, and it refuses a record
that is told a field twice (`Lenient.record`, `Lenient.beside`). Readers of lists and
tables pass this on from their items (`Lenient.list`, `Lenient.table`).

Key definitions: `Shape`, `Edit`, `Repeats`, `Lenient`, `Form.Lenient`, `Reads`.
Key theorems: `Form.Lenient.told_field`, `Lenient.list`, `Lenient.table`, `Lenient.record`,
`Lenient.beside`.
-/
import Mathlib.Logic.Relation
import Brokerage.Proofs.Members
import Brokerage.Plan

namespace Brokerage
namespace Wire

open Json (Tree Member)

/-! ### Layouts and edits -/

/-- How a message is laid out. A record has the names of each field and the layout of its
value. Members that it does not know are passed over, or kept as values, nested at most so
deep. -/
inductive Shape where
  /-- A value that is taken as it is. -/
  | value
  | list (item : Shape)
  /-- An object whose names are symbols. -/
  | table (entry : Shape)
  | record (fields : List (List String × Shape)) (kept : Option ℕ)

/-- A value that may stand under a name that a record does not know. -/
def passes : Option ℕ → Tree → Bool
  | none, t => t.sound
  | some levels, t => t.strict levels

/-- The record has no field of this name. -/
def Unknown (fields : List (List String × Shape)) (name : String) : Prop :=
  ∀ field ∈ fields, name ∉ field.1

/-- One edit of a message that is laid out in this way. -/
inductive Edit : Shape → Tree → Tree → Prop
  /-- The members of a record stand in another order. -/
  | permute {fields : List (List String × Shape)} {kept : Option ℕ} {ms ns : List Member}
      (h : ms.Perm ns) : Edit (.record fields kept) (.object ms true) (.object ns true)
  /-- The entries of a table stand in another order. -/
  | permuteEntries {entry : Shape} {ms ns : List Member} (hnames : (ms.map (·.1)).Nodup)
      (h : ms.Perm ns) : Edit (.table entry) (.object ms true) (.object ns true)
  | insert {fields : List (List String × Shape)} {kept : Option ℕ} {before after : List Member}
      {name : String} {value : Tree} (hunknown : Unknown fields name)
      (hvalue : passes kept value = true) :
    Edit (.record fields kept) (.object (before ++ after) true)
      (.object (before ++ (some name, value) :: after) true)
  | delete {fields : List (List String × Shape)} {kept : Option ℕ} {before after : List Member}
      {name : String} {value : Tree} (hunknown : Unknown fields name) :
    Edit (.record fields kept) (.object (before ++ (some name, value) :: after) true)
      (.object (before ++ after) true)
  | item {s : Shape} {before after : List Tree} {t u : Tree} (h : Edit s t u) :
    Edit (.list s) (.array (before ++ t :: after) true) (.array (before ++ u :: after) true)
  | entry {s : Shape} {before after : List Member} {name : Option String} {t u : Tree}
      (h : Edit s t u) :
    Edit (.table s) (.object (before ++ (name, t) :: after) true)
      (.object (before ++ (name, u) :: after) true)
  | field {fields : List (List String × Shape)} {names : List String} {s : Shape}
      {before after : List Member} {name : String} {t u : Tree} (hfield : (names, s) ∈ fields)
      (hname : name ∈ names) (h : Edit s t u) :
    Edit (.record fields none) (.object (before ++ (some name, t) :: after) true)
      (.object (before ++ (some name, u) :: after) true)
  /-- The record is written as an array of the values of its fields. -/
  | place {fields : List (List String × Shape)} {names : List String} {s : Shape}
      {before after : List Tree} {t u : Tree} (hfield : fields[before.length]? = some (names, s))
      (h : Edit s t u) :
    Edit (.record fields none) (.array (before ++ t :: after) true)
      (.array (before ++ u :: after) true)

/-- Somewhere in the message two members of a record go by names of one field. -/
inductive Repeats : Shape → Tree → Prop
  | here {fields : List (List String × Shape)} {kept : Option ℕ} {names : List String} {s : Shape}
      {before between after : List Member} {name other : String} {t u : Tree} {closed : Bool}
      (hfield : (names, s) ∈ fields) (hname : name ∈ names) (hother : other ∈ names) :
    Repeats (.record fields kept)
      (.object (before ++ (some name, t) :: (between ++ (some other, u) :: after)) closed)
  | item {s : Shape} {before after : List Tree} {t : Tree} {closed : Bool} (h : Repeats s t) :
    Repeats (.list s) (.array (before ++ t :: after) closed)
  | entry {s : Shape} {before after : List Member} {name : Option String} {t : Tree}
      {closed : Bool} (h : Repeats s t) :
    Repeats (.table s) (.object (before ++ (name, t) :: after) closed)
  | field {fields : List (List String × Shape)} {names : List String} {s : Shape}
      {before after : List Member} {name : String} {t : Tree} {closed : Bool}
      (hfield : (names, s) ∈ fields) (hname : name ∈ names) (h : Repeats s t) :
    Repeats (.record fields none) (.object (before ++ (some name, t) :: after) closed)
  | place {fields : List (List String × Shape)} {names : List String} {s : Shape}
      {before after : List Tree} {t : Tree} {closed : Bool}
      (hfield : fields[before.length]? = some (names, s)) (h : Repeats s t) :
    Repeats (.record fields none) (.array (before ++ t :: after) closed)

/-- As far as `view` tells, the reader takes no notice of an edit, and it refuses what
repeats a field. -/
structure Lenient {β γ : Type} (s : Shape) (read : Reader β) (view : β → γ) : Prop where
  edited : ∀ {t u : Tree} {b : β}, Edit s t u → read t = .ok b →
    ∃ c, read u = .ok c ∧ view c = view b
  repeated : ∀ {t : Tree} {b : β}, Repeats s t → read t ≠ .ok b

namespace Lenient

variable {β γ δ ε : Type} {s : Shape} {read : Reader β} {view : β → γ}

theorem value (read : Reader β) (view : β → γ) : Lenient .value read view :=
  ⟨nofun, nofun⟩

/-- What is made of a value that was read. -/
theorem bind (h : Lenient s read view) {make : β → Except Fault δ} {view' : δ → ε}
    (hmake : ∀ b c d, view c = view b → make b = .ok d →
      ∃ e, make c = .ok e ∧ view' e = view' d) :
    Lenient s (fun t => read t >>= make) view' where
  edited := by
    intro t u d hedit hd
    obtain ⟨b, hb, hd⟩ := bind_ok_iff.mp hd
    obtain ⟨c, hc, hview⟩ := h.edited hedit hb
    obtain ⟨e, he, hview'⟩ := hmake b c d hview hd
    exact ⟨e, bind_ok_iff.mpr ⟨c, hc, he⟩, hview'⟩
  repeated := by
    intro t d hrepeats hd
    obtain ⟨b, hb, -⟩ := bind_ok_iff.mp hd
    exact h.repeated hrepeats hb

/-- Whatever is made of a value that is read exactly. -/
theorem bind_exact (h : Lenient s read id) (make : β → Except Fault δ) :
    Lenient s (fun t => read t >>= make) id :=
  h.bind fun b c d hsame hd => by
    obtain rfl : c = b := hsame
    exact ⟨d, hd, rfl⟩

/-! ### Lists -/

theorem readAll_append (read : Reader β) (us : List Tree) : ∀ ts : List Tree,
    readAll read (ts ++ us) =
      readAll read ts >>= fun bs => readAll read us >>= fun cs => .ok (bs ++ cs)
  | [] => by
    cases h : readAll read us <;> simp [readAll, h, Bind.bind, Except.bind]
  | t :: ts => by
    rw [List.cons_append, readAll, readAll, readAll_append read us ts]
    cases read t with
    | error fault => rfl
    | ok b =>
      cases readAll read ts with
      | error fault => rfl
      | ok bs => cases readAll read us <;> rfl

/-- A list is read if the items in front of one, that one and those behind it are. -/
theorem list_split {before after : List Tree} {t : Tree} {closed : Bool} {bs : List β} :
    Wire.list read (.array (before ++ t :: after) closed) = .ok bs ↔
      closed = true ∧ ∃ front b back, readAll read before = .ok front ∧ read t = .ok b ∧
        readAll read after = .ok back ∧ bs = front ++ b :: back := by
  show (readAll read (before ++ t :: after) >>= fun bs =>
    if closed then .ok bs else .error .unreadable) = .ok bs ↔ _
  rw [readAll_append, readAll]
  cases readAll read before with
  | error fault => simp [Bind.bind, Except.bind]
  | ok front =>
    cases read t with
    | error fault => simp [Bind.bind, Except.bind]
    | ok b =>
      cases readAll read after with
      | error fault => simp [Bind.bind, Except.bind]
      | ok back => cases closed <;> simp [Bind.bind, Except.bind, pure, Except.pure, eq_comm]

/-- **A list** is read leniently if its items are. -/
theorem list (h : Lenient s read view) : Lenient (.list s) (Wire.list read) (List.map view) where
  edited := by
    intro t u bs hedit hbs
    cases hedit with
    | @item _ before after t u hedit =>
      obtain ⟨-, front, b, back, hfront, hb, hback, rfl⟩ := list_split.mp hbs
      obtain ⟨c, hc, hview⟩ := h.edited hedit hb
      refine ⟨front ++ c :: back, list_split.mpr ⟨rfl, front, c, back, hfront, hc, hback, rfl⟩, ?_⟩
      simp only [List.map_append, List.map_cons, hview]
  repeated := by
    intro t bs hrepeats hbs
    cases hrepeats with
    | item hrepeats =>
      obtain ⟨-, front, b, back, -, hb, -, -⟩ := list_split.mp hbs
      exact h.repeated hrepeats hb

theorem list_exact (h : Lenient s read id) : Lenient (.list s) (Wire.list read) id := by
  have hlist := h.list
  rwa [List.map_id_fun] at hlist

end Lenient

/-! ### Tables -/

section

variable {β γ : Type} {read : Reader β}

/-- The value of the last member that is named for the symbol. -/
def lastUnder (read : Reader β) (key : Symbol) : List Member → Option β
  | [] => none
  | (name, value) :: ms =>
    (lastUnder read key ms).or (if name = some key.name then (read value).toOption else none)

/-- Members are entered if all names and values can be read. -/
theorem enterAll_ok_iff : ∀ (ms : List Member) (t : Table Symbol β),
    (∃ u, enterAll read ms t = .ok u) ↔
      ∀ m ∈ ms, m.1.isSome = true ∧ ∃ b, read m.2 = .ok b
  | [], t => by
    refine ⟨fun _ m hm => ?_, fun _ => ⟨t, rfl⟩⟩
    cases hm
  | (none, value) :: ms, t => by
    constructor
    · rintro ⟨u, hu⟩
      cases hu
    · intro h
      cases (h _ List.mem_cons_self).1
  | (some name, value) :: ms, t => by
    rw [enterAll, List.forall_mem_cons]
    cases read value with
    | error fault =>
      constructor
      · rintro ⟨u, hu⟩
        cases hu
      · rintro ⟨⟨-, b, hb⟩, -⟩
        cases hb
    | ok b =>
      exact (enterAll_ok_iff ms (t.insert ⟨name⟩ b)).trans
        ⟨fun h => ⟨⟨rfl, b, rfl⟩, h⟩, fun h => h.2⟩

/-- The later of two members with one name stays. -/
theorem get?_enterAll (key : Symbol) : ∀ {ms : List Member} {t u : Table Symbol β},
    enterAll read ms t = .ok u → u.get? key = (lastUnder read key ms).or (t.get? key)
  | [], t, u, h => by
    cases h
    rfl
  | (none, value) :: ms, t, u, h => by cases h
  | (some name, value) :: ms, t, u, h => by
    rw [enterAll] at h
    obtain ⟨b, hb, h⟩ := bind_ok_iff.mp h
    rw [get?_enterAll key h, Table.get?_insert, lastUnder, Option.or_assoc, hb]
    obtain ⟨key⟩ := key
    by_cases hname : name = key
    · simp [hname, Except.toOption]
    · simp [hname]

/-- Where no name stands twice, the order of the members plays no part. -/
theorem lastUnder_perm (key : Symbol) {ms ns : List Member} (h : ms.Perm ns)
    (hnames : (ms.map (·.1)).Nodup) : lastUnder read key ms = lastUnder read key ns := by
  induction h with
  | nil => rfl
  | cons m _ ih => rw [lastUnder, lastUnder, ih (List.nodup_cons.mp hnames).2]
  | swap m n rest =>
    have hother : n.1 ≠ m.1 := fun h =>
      (List.nodup_cons.mp hnames).1 (h ▸ List.mem_cons_self : n.1 ∈ m.1 :: rest.map (·.1))
    simp only [lastUnder, Option.or_assoc]
    congr 1
    by_cases hm : m.1 = some key.name
    · rw [if_neg fun hn : n.1 = some key.name => hother (hn.trans hm.symm), Option.none_or,
        Option.or_none]
    · rw [if_neg hm, Option.none_or, Option.or_none]
  | trans hfirst _ ihfirst ihsecond =>
    exact (ihfirst hnames).trans (ihsecond ((hfirst.map _).nodup_iff.mp hnames))

theorem lastUnder_edited (key : Symbol) {view : β → γ} {name : Option String} {t u : Tree} {b c : β}
    (hb : read t = .ok b) (hc : read u = .ok c) (hview : view c = view b) (after : List Member) :
    ∀ before : List Member, (lastUnder read key (before ++ (name, u) :: after)).map view =
      (lastUnder read key (before ++ (name, t) :: after)).map view
  | [] => by
    rw [List.nil_append, List.nil_append, lastUnder, lastUnder, hb, hc]
    cases lastUnder read key after with
    | some d => rfl
    | none => by_cases hname : name = some key.name <;> simp [hname, Except.toOption, hview]
  | m :: before => by
    rw [List.cons_append, List.cons_append, lastUnder, lastUnder, Option.map_or, Option.map_or,
      lastUnder_edited key hb hc hview after before]

theorem table_ok_iff {ms : List Member} {closed : Bool} {u : Table Symbol β} :
    table read (.object ms closed) = .ok u ↔ closed = true ∧ enterAll read ms ∅ = .ok u := by
  show (enterAll read ms ∅ >>= fun es => if closed then .ok es else .error .unreadable) = .ok u ↔ _
  cases enterAll read ms ∅ with
  | error fault => simp [Bind.bind, Except.bind]
  | ok es => cases closed <;> simp [Bind.bind, Except.bind]

/-- **A table** is read leniently if its values are: what it holds under each symbol is the
same. -/
theorem Lenient.table {s : Shape} {view : β → γ} (h : Lenient s read view) :
    Lenient (.table s) (Wire.table read) fun t key => (t.get? key).map view where
  edited := by
    intro t u es hedit hes
    cases hedit with
    | @permuteEntries _ ms ns hnames hperm =>
      obtain ⟨-, hentered⟩ := table_ok_iff.mp hes
      have hall := (enterAll_ok_iff ms ∅).mp ⟨es, hentered⟩
      obtain ⟨fs, hfs⟩ := (enterAll_ok_iff ns ∅).mpr fun m hm => hall m (hperm.mem_iff.mpr hm)
      refine ⟨fs, table_ok_iff.mpr ⟨rfl, hfs⟩, funext fun key => ?_⟩
      rw [get?_enterAll key hfs, get?_enterAll key hentered, lastUnder_perm key hperm hnames]
    | @entry _ before after name t u hedit =>
      obtain ⟨-, hentered⟩ := table_ok_iff.mp hes
      have hall := (enterAll_ok_iff _ ∅).mp ⟨es, hentered⟩
      obtain ⟨hname, b, hb⟩ := hall (name, t) (List.mem_append_right _ List.mem_cons_self)
      obtain ⟨c, hc, hview⟩ := h.edited hedit hb
      obtain ⟨fs, hfs⟩ := (enterAll_ok_iff (before ++ (name, u) :: after) ∅).mpr fun m hm => by
        rcases List.mem_append.mp hm with hm | hm
        · exact hall m (List.mem_append_left _ hm)
        · rcases List.mem_cons.mp hm with rfl | hm
          · exact ⟨hname, c, hc⟩
          · exact hall m (List.mem_append_right _ (List.mem_cons_of_mem _ hm))
      refine ⟨fs, table_ok_iff.mpr ⟨rfl, hfs⟩, funext fun key => ?_⟩
      rw [get?_enterAll key hfs, get?_enterAll key hentered, Option.map_or, Option.map_or,
        lastUnder_edited key hb hc hview]
  repeated := by
    intro t es hrepeats hes
    cases hrepeats with
    | @entry _ before after name t closed hrepeats =>
      obtain ⟨-, hentered⟩ := table_ok_iff.mp hes
      obtain ⟨-, b, hb⟩ := (enterAll_ok_iff _ ∅).mp ⟨es, hentered⟩ (name, t)
        (List.mem_append_right _ List.mem_cons_self)
      exact h.repeated hrepeats hb

theorem Lenient.table_exact {s : Shape} (h : Lenient s read id) :
    Lenient (.table s) (Wire.table read) Table.get? := by
  have htable := h.table
  simp only [Option.map_id_fun, id] at htable
  exact htable

end

/-! ### Records -/

theorem passed_both_ways {β : Type} {f : Form β} {m : Member} (h : f.takes m = false)
    (before after : List Member) :
    (before ++ m :: after).filter f.takes = (before ++ after).filter f.takes := by
  rw [List.filter_append, List.filter_append, List.filter_cons_of_neg (by simp [h])]

/-- A member that tells a field is the only one that goes by its names. -/
theorem Form.told_one {β : Type} {field : Field β} {m : Member} (hm : field.takes m = true)
    (before after : List Member) (b : β) :
    (Form.one field).Told (before ++ m :: after) b ↔
      before.filter field.takes = [] ∧ after.filter field.takes = [] ∧ field.read m.2 = .ok b := by
  unfold Form.Told
  rw [List.filter_append, List.filter_cons_of_pos hm]
  cases before.filter field.takes with
  | nil => cases after.filter field.takes <;> simp
  | cons first rest => cases rest <;> simp

/-- The fields of the form are laid out in this way and read leniently. -/
inductive Form.Lenient : {β γ : Type} → List (List String × Shape) → Form β → (β → γ) → Prop
  | one {β γ : Type} {s : Shape} {field : Field β} {view : β → γ}
      (h : Wire.Lenient s field.read view) : Form.Lenient [(field.keys, s)] (.one field) view
  | next {β γ δ ε : Type} {s : Shape} {field : Field β} {view : β → γ}
      {fields : List (List String × Shape)} {rest : Form δ} {views : δ → ε}
      (h : Wire.Lenient s field.read view) (hrest : Form.Lenient fields rest views) :
    Form.Lenient ((field.keys, s) :: fields) (.both (.one field) rest) (Prod.map view views)

namespace Form.Lenient

variable {β γ : Type} {fields : List (List String × Shape)} {f : Form β} {view : β → γ}

theorem keys (h : f.Lenient fields view) : f.keys = fields.flatMap (·.1) := by
  induction h with
  | one _ => exact (List.append_nil _).symm
  | next _ _ ih =>
    rw [Form.keys, ih]
    rfl

theorem takes_iff (h : f.Lenient fields view) (name : String) (t : Tree) :
    f.takes (some name, t) = false ↔ Unknown fields name := by
  show f.knows name = false ↔ _
  rw [← Bool.not_eq_true, f.knows_iff, h.keys, List.mem_flatMap]
  unfold Unknown
  simp

/-- **The value of a field is edited:** the record is told as before, as far as `view`
tells. -/
theorem told_field (h : f.Lenient fields view) (hkeys : f.keys.Nodup) {names : List String}
    {s : Shape} {name : String} {t u : Tree} {before after : List Member}
    (hfield : (names, s) ∈ fields) (hname : name ∈ names) (hedit : Edit s t u) {b : β}
    (htold : f.Told (before ++ (some name, t) :: after) b) :
    ∃ c, f.Told (before ++ (some name, u) :: after) c ∧ view c = view b := by
  have hone : ∀ {δ ε : Type} {field : Field δ} {view : δ → ε} {d : δ},
      Wire.Lenient s field.read view → name ∈ field.keys →
      (Form.one field).Told (before ++ (some name, t) :: after) d →
      ∃ e, (Form.one field).Told (before ++ (some name, u) :: after) e ∧ view e = view d := by
    intro δ ε field view d hlenient hkey htold
    have htakes : ∀ v : Tree, field.takes (some name, v) = true := fun _ =>
      (field.answersTo_iff name).mpr hkey
    obtain ⟨hbefore, hafter, hread⟩ := (Form.told_one (htakes t) before after d).mp htold
    obtain ⟨e, he, hview⟩ := hlenient.edited hedit hread
    exact ⟨e, (Form.told_one (htakes u) before after e).mpr ⟨hbefore, hafter, he⟩, hview⟩
  -- Another field does not see the member, whatever its value.
  have hother : ∀ {δ : Type} {g : Form δ} {d : δ}, name ∉ g.keys →
      g.Told (before ++ (some name, t) :: after) d → g.Told (before ++ (some name, u) :: after) d := by
    intro δ g d hkey htold
    have hleft : ∀ v : Tree, g.takes (some name, v) = false := fun _ =>
      Bool.eq_false_iff.mpr fun h => hkey ((g.knows_iff name).mp h)
    refine (Form.told_congr ?_ d).mp htold
    rw [passed_both_ways (hleft t), passed_both_ways (hleft u)]
  induction h with
  | one hlenient =>
    cases List.mem_singleton.mp hfield
    exact hone hlenient hname htold
  | @next _ _ _ _ _ field _ fields rest _ hlenient hrest ih =>
    obtain ⟨-, hrestKeys, hapart⟩ := List.nodup_append.mp hkeys
    obtain ⟨d, ds⟩ := b
    rcases List.mem_cons.mp hfield with hhere | hlater
    · cases hhere
      obtain ⟨e, he, hview⟩ := hone hlenient hname htold.1
      refine ⟨(e, ds), ⟨he, hother (fun hmem => hapart name hname name hmem rfl) htold.2⟩, ?_⟩
      exact Prod.ext hview rfl
    · obtain ⟨es, hes, hview⟩ := ih hrestKeys hlater htold.2
      have hmem : name ∈ rest.keys := by
        rw [hrest.keys]
        exact List.mem_flatMap.mpr ⟨_, hlater, hname⟩
      refine ⟨(d, es), ⟨hother (fun hkey => hapart name hkey name hmem rfl) htold.1, hes⟩, ?_⟩
      exact Prod.ext rfl hview

/-- **A field whose value repeats a field** is not told. -/
theorem not_told_field (h : f.Lenient fields view) {names : List String} {s : Shape}
    {name : String} {t : Tree} {before after : List Member} (hfield : (names, s) ∈ fields)
    (hname : name ∈ names) (hrepeats : Repeats s t) :
    ∀ b, ¬ f.Told (before ++ (some name, t) :: after) b := by
  induction h with
  | @one _ _ _ field _ hlenient =>
    cases List.mem_singleton.mp hfield
    intro b htold
    have htakes : field.takes (some name, t) = true := (field.answersTo_iff name).mpr hname
    exact hlenient.repeated hrepeats ((Form.told_one htakes before after b).mp htold).2.2
  | @next _ _ _ _ _ field _ _ _ _ hlenient _ ih =>
    rintro ⟨d, ds⟩ ⟨htold, hrest⟩
    rcases List.mem_cons.mp hfield with hhere | hlater
    · cases hhere
      have htakes : field.takes (some name, t) = true := (field.answersTo_iff name).mpr hname
      exact hlenient.repeated hrepeats ((Form.told_one htakes before after d).mp htold).2.2
    · exact ih hlater ds hrest

/-- **A field that is given twice** is not told. -/
theorem not_told_twice (h : f.Lenient fields view) {names : List String} {s : Shape}
    {name other : String} {t u : Tree} {before between after : List Member}
    (hfield : (names, s) ∈ fields) (hname : name ∈ names) (hother : other ∈ names) :
    ∀ b, ¬ f.Told (before ++ (some name, t) :: (between ++ (some other, u) :: after)) b := by
  have hone : ∀ {δ : Type} {field : Field δ} {d : δ}, name ∈ field.keys → other ∈ field.keys →
      ¬ (Form.one field).Told (before ++ (some name, t) :: (between ++ (some other, u) :: after))
        d := by
    intro δ field d hname hother htold
    have htakes : field.takes (some name, t) = true := (field.answersTo_iff name).mpr hname
    have htaken : field.takes (some other, u) = true := (field.answersTo_iff other).mpr hother
    have hlater := ((Form.told_one htakes before _ d).mp htold).2.1
    rw [List.filter_append, List.filter_cons_of_pos htaken] at hlater
    exact List.append_ne_nil_of_right_ne_nil _ (List.cons_ne_nil _ _) hlater
  induction h with
  | one _ =>
    cases List.mem_singleton.mp hfield
    exact fun b => hone hname hother
  | next _ _ ih =>
    rintro ⟨d, ds⟩ ⟨htold, hrest⟩
    rcases List.mem_cons.mp hfield with hhere | hlater
    · cases hhere
      exact hone hname hother htold
    · exact ih hlater ds hrest

end Form.Lenient

theorem Form.lineUp_one {β : Type} {field : Field β} {closed : Bool} {t : Tree} {ts rest : List Tree}
    {b : β} : (Form.one field).lineUp closed (t :: ts) = .ok (b, rest) ↔
      field.read t = .ok b ∧ rest = ts := by
  rw [Form.lineUp, map_ok_iff]
  simp [eq_comm]

theorem Form.lineUp_next {β γ : Type} {field : Field β} {others : Form γ} {closed : Bool} {t : Tree}
    {ts rest : List Tree} {r : β × γ} :
    (Form.both (.one field) others).lineUp closed (t :: ts) = .ok (r, rest) ↔
      field.read t = .ok r.1 ∧ others.lineUp closed ts = .ok (r.2, rest) := by
  obtain ⟨b, c⟩ := r
  rw [Form.lineUp, bind_ok_iff]
  constructor
  · rintro ⟨⟨b', us⟩, hfirst, h⟩
    obtain ⟨hb, rfl⟩ := Form.lineUp_one.mp hfirst
    obtain ⟨⟨c', vs⟩, hc, h⟩ := bind_ok_iff.mp h
    cases h
    exact ⟨hb, hc⟩
  · rintro ⟨hb, hc⟩
    exact ⟨(b, ts), Form.lineUp_one.mpr ⟨hb, rfl⟩, bind_ok_iff.mpr ⟨(c, rest), hc, rfl⟩⟩

namespace Form.Lenient

variable {β γ : Type} {fields : List (List String × Shape)} {f : Form β} {view : β → γ}
  {closed : Bool} {names : List String} {s : Shape} {t u : Tree} {after : List Tree}

/-- **The value at the place of a field is edited.** -/
theorem lineUp_place (h : f.Lenient fields view) (hedit : Edit s t u) :
    ∀ {before : List Tree} {b : β} {rest : List Tree},
      fields[before.length]? = some (names, s) →
      f.lineUp closed (before ++ t :: after) = .ok (b, rest) →
      ∃ c, f.lineUp closed (before ++ u :: after) = .ok (c, rest) ∧ view c = view b := by
  induction h with
  | one hlenient =>
    intro before b rest hfield hread
    cases before with
    | cons v before => cases hfield
    | nil =>
      cases hfield
      obtain ⟨hb, rfl⟩ := Form.lineUp_one.mp hread
      obtain ⟨c, hc, hview⟩ := hlenient.edited hedit hb
      exact ⟨c, Form.lineUp_one.mpr ⟨hc, rfl⟩, hview⟩
  | next hlenient _ ih =>
    intro before b rest hfield hread
    cases before with
    | nil =>
      cases hfield
      obtain ⟨hb, hbs⟩ := Form.lineUp_next.mp hread
      obtain ⟨c, hc, hview⟩ := hlenient.edited hedit hb
      exact ⟨(c, b.2), Form.lineUp_next.mpr ⟨hc, hbs⟩, Prod.ext hview rfl⟩
    | cons v before =>
      obtain ⟨hb, hbs⟩ := Form.lineUp_next.mp hread
      obtain ⟨cs, hcs, hview⟩ := ih hfield hbs
      exact ⟨(b.1, cs), Form.lineUp_next.mpr ⟨hb, hcs⟩, Prod.ext rfl hview⟩

theorem not_lineUp_place (h : f.Lenient fields view) (hrepeats : Repeats s t) :
    ∀ {before : List Tree} {b : β} {rest : List Tree},
      fields[before.length]? = some (names, s) →
      f.lineUp closed (before ++ t :: after) ≠ .ok (b, rest) := by
  induction h with
  | one hlenient =>
    intro before b rest hfield hread
    cases before with
    | cons v before => cases hfield
    | nil =>
      cases hfield
      exact hlenient.repeated hrepeats (Form.lineUp_one.mp hread).1
  | next hlenient _ ih =>
    intro before b rest hfield hread
    cases before with
    | nil =>
      cases hfield
      exact hlenient.repeated hrepeats (Form.lineUp_next.mp hread).1
    | cons v before => exact ih hfield (Form.lineUp_next.mp hread).2

theorem next_exact {s : Shape} {field : Field β} {rest : Form γ} (h : Wire.Lenient s field.read id)
    (hrest : rest.Lenient fields id) :
    (Form.both (.one field) rest).Lenient ((field.keys, s) :: fields) id := by
  have hnext := Form.Lenient.next h hrest
  rwa [Prod.map_id] at hnext

end Form.Lenient

theorem Form.ofItems_iff {β : Type} {f : Form β} {ts : List Tree} {closed : Bool} {b : β} :
    f.ofItems ts closed = .ok b ↔ closed = true ∧ f.lineUp closed ts = .ok (b, []) := by
  unfold Form.ofItems
  cases f.lineUp closed ts with
  | error fault => simp [Bind.bind, Except.bind]
  | ok reached =>
    obtain ⟨c, rest⟩ := reached
    cases closed <;> cases rest <;> simp [Bind.bind, Except.bind, pure, Except.pure]

/-- The reader takes from an object the record that the members tell, if it can take in
those that `own` does not know. -/
def Reads {β δ : Type} (read : Reader β) (own : Form δ) (kept : Option ℕ) (f : Form β) : Prop :=
  ∀ (ms : List Member) (closed : Bool) (b : β), read (.object ms closed) = .ok b ↔
    closed = true ∧ own.Readable (passes kept) ms ∧ f.Told ms b

namespace Reads

variable {β γ δ : Type} {read : Reader β} {own : Form δ} {kept : Option ℕ} {f : Form β}
  {fields : List (List String × Shape)} {view : β → γ} {before after : List Member}
  {name : String} {value : Tree} {b : β}

theorem permuted (hread : Reads read own kept f) {ms ns : List Member} (h : ms.Perm ns)
    (hb : read (.object ms true) = .ok b) : read (.object ns true) = .ok b := by
  obtain ⟨-, hreadable, htold⟩ := (hread ms true b).mp hb
  exact (hread ns true b).mpr
    ⟨rfl, fun m hm => hreadable m (h.mem_iff.mpr hm), htold.perm h⟩

theorem inserted (hread : Reads read own kept f) (hf : f.Lenient fields view)
    (hunknown : Unknown fields name) (hvalue : passes kept value = true)
    (hb : read (.object (before ++ after) true) = .ok b) :
    read (.object (before ++ (some name, value) :: after) true) = .ok b := by
  obtain ⟨-, hreadable, htold⟩ := (hread _ true b).mp hb
  have hleft := passed_both_ways ((hf.takes_iff name value).mpr hunknown) before after
  refine (hread _ true b).mpr ⟨rfl, fun m hm => ?_, (Form.told_congr hleft b).mpr htold⟩
  rcases List.mem_append.mp hm with hm | hm
  · exact hreadable m (List.mem_append_left _ hm)
  · rcases List.mem_cons.mp hm with rfl | hm
    · exact ⟨rfl, fun _ => hvalue⟩
    · exact hreadable m (List.mem_append_right _ hm)

theorem deleted (hread : Reads read own kept f) (hf : f.Lenient fields view)
    (hunknown : Unknown fields name)
    (hb : read (.object (before ++ (some name, value) :: after) true) = .ok b) :
    read (.object (before ++ after) true) = .ok b := by
  obtain ⟨-, hreadable, htold⟩ := (hread _ true b).mp hb
  have hleft := passed_both_ways ((hf.takes_iff name value).mpr hunknown) before after
  refine (hread _ true b).mpr ⟨rfl, fun m hm => hreadable m ?_, (Form.told_congr hleft b).mp htold⟩
  rcases List.mem_append.mp hm with hm | hm
  · exact List.mem_append_left _ hm
  · exact List.mem_append_right _ (List.mem_cons_of_mem _ hm)

end Reads

variable {β γ : Type} {fields : List (List String × Shape)} {f : Form β} {view : β → γ}

/-- **A record** is read leniently if its fields are. -/
theorem Lenient.record (hf : f.Lenient fields view) (hkeys : f.keys.Nodup) :
    Lenient (.record fields none) f.read view := by
  have hread : Reads f.read f none f := fun ms closed b => Form.ofMembers_iff hkeys
  constructor
  · intro t u b hedit hb
    cases hedit with
    | permute h => exact ⟨b, hread.permuted h hb, rfl⟩
    | insert hunknown hvalue => exact ⟨b, hread.inserted hf hunknown hvalue hb, rfl⟩
    | delete hunknown => exact ⟨b, hread.deleted hf hunknown hb, rfl⟩
    | field hfield hname hedit =>
      rename_i t u
      obtain ⟨-, hreadable, htold⟩ := (hread _ true b).mp hb
      obtain ⟨c, hc, hview⟩ := hf.told_field hkeys hfield hname hedit htold
      refine ⟨c, (hread _ true c).mpr ⟨rfl, fun m hm => ?_, hc⟩, hview⟩
      rcases List.mem_append.mp hm with hm | hm
      · exact hreadable m (List.mem_append_left _ hm)
      · rcases List.mem_cons.mp hm with rfl | hm
        · refine ⟨rfl, fun hleft => absurd hname ?_⟩
          exact (hf.takes_iff _ u).mp hleft _ hfield
        · exact hreadable m (List.mem_append_right _ (List.mem_cons_of_mem _ hm))
    | place hfield hedit =>
      obtain ⟨-, hb⟩ := Form.ofItems_iff.mp hb
      obtain ⟨c, hc, hview⟩ := hf.lineUp_place hedit hfield hb
      exact ⟨c, Form.ofItems_iff.mpr ⟨rfl, hc⟩, hview⟩
  · intro t b hrepeats hb
    cases hrepeats with
    | here hfield hname hother =>
      exact hf.not_told_twice hfield hname hother b ((hread _ _ b).mp hb).2.2
    | field hfield hname hrepeats =>
      exact hf.not_told_field hfield hname hrepeats b ((hread _ _ b).mp hb).2.2
    | place hfield hrepeats =>
      exact hf.not_lineUp_place hrepeats hfield (Form.ofItems_iff.mp hb).2

/-- **Two records in one object** are read leniently: what the first does not know is kept,
and what neither knows comes to nothing. -/
theorem Lenient.beside {δ : Type} {own : Form β} {guest : Form δ} {levels : ℕ}
    {view : β × δ → γ} (hf : (Form.both own guest).Lenient fields view)
    (hkeys : (own.keys ++ guest.keys).Nodup) :
    Lenient (.record fields (some levels)) (Form.readBeside own guest levels) view := by
  have hread : Reads (Form.readBeside own guest levels) own (some levels) (.both own guest) :=
    fun ms closed b => Form.readBeside_iff hkeys
  constructor
  · intro t u b hedit hb
    cases hedit with
    | permute h => exact ⟨b, hread.permuted h hb, rfl⟩
    | insert hunknown hvalue => exact ⟨b, hread.inserted hf hunknown hvalue hb, rfl⟩
    | delete hunknown => exact ⟨b, hread.deleted hf hunknown hb, rfl⟩
  · intro t b hrepeats hb
    cases hrepeats with
    | here hfield hname hother =>
      exact hf.not_told_twice hfield hname hother b ((hread _ _ b).mp hb).2.2

end Wire
end Brokerage
