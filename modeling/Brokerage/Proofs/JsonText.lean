/-
# Values are read back from their text

The text of a value has no control character in it and is read back as a tree that tells
the value (`Tells`): a text letter by letter, a whole number as itself, an amount as a
numeral that reads back to the same double, and an amount that is not finite, which JSON
has no text for, as `null`. Each piece of text is read back whatever stands behind it
(`Shown`), and from that a list of pieces is.

Key definitions: `Tells`, `Shown`, `ShownItems`, `ShownMembers`, `Value.tree`.
Key theorems: `readText_escaped`, `shown_text`, `shown_amount`, `shown_render`,
`read_tree`, `read_render`.
-/
import Brokerage.Proofs.Double
import Brokerage.Proofs.Shortest

namespace Brokerage
namespace Json

open Decimal (Binary Numeral classify)

mutual

/-- What was read tells the value. -/
inductive Tells : Tree → Value → Prop
  | null : Tells .null .null
  | bool (b : Bool) : Tells (.bool b) (.bool b)
  | integer (n : Numeral) (h : n.integral = true) : Tells (.number n) (.integer n.signed)
  | amount {x : Float} {b : Binary} (n : Numeral) (hx : classify x = .finite n.negative b)
    (h : b.readsBack n.decimal = true) : Tells (.number n) (.amount x)
  | notFinite {x : Float} (hx : x.isFinite = false) : Tells .null (.amount x)
  | text (s : String) : Tells (.text (some s)) (.text s)
  | array {ts : List Tree} {vs : List Value} (h : TellsItems ts vs) :
    Tells (.array ts true) (.array vs)
  | object {ts : List Member} {ms : List (String × Value)} (h : TellsMembers ts ms) :
    Tells (.object ts true) (.object ms)

inductive TellsItems : List Tree → List Value → Prop
  | nil : TellsItems [] []
  | cons {t : Tree} {v : Value} {ts : List Tree} {vs : List Value} (h : Tells t v)
    (hs : TellsItems ts vs) : TellsItems (t :: ts) (v :: vs)

inductive TellsMembers : List Member → List (String × Value) → Prop
  | nil : TellsMembers [] []
  | cons (name : String) {t : Tree} {v : Value} {ts : List Member} {ms : List (String × Value)}
    (h : Tells t v) (hs : TellsMembers ts ms) :
    TellsMembers ((some name, t) :: ts) ((name, v) :: ms)

end

/-! ### Texts -/

theorem hexValue?_hexDigit : ∀ n < 16, hexValue? (hexDigit n) = some n := by decide

theorem printed_hexDigit : ∀ n < 16, ¬ hexDigit n < ' ' := by decide

/-- The unit of a control character. -/
theorem hexUnit?_control {c : Char} (hc : c.toNat < 32) :
    hexUnit? '0' '0' (hexDigit (c.toNat / 16)) (hexDigit (c.toNat % 16)) = some c.toNat := by
  have hzero : hexValue? '0' = some 0 := by decide
  unfold hexUnit?
  rw [hzero, hexValue?_hexDigit _ (by omega), hexValue?_hexDigit _ (Nat.mod_lt _ (by decide))]
  show some (((0 * 16 + 0) * 16 + c.toNat / 16) * 16 + c.toNat % 16) = some c.toNat
  congr 1
  omega

theorem pieceOfUnit_control {c : Char} (hc : c.toNat < 32) :
    pieceOfUnit c.toNat = .char c := by
  unfold pieceOfUnit
  have hlow : ¬ (decide (0xD800 ≤ c.toNat) && decide (c.toNat ≤ 0xDFFF)) = true := by
    rw [Bool.and_eq_true, decide_eq_true_iff]
    omega
  rw [if_neg hlow, Char.ofNat_toNat]

/-- An escaped character is read back. -/
theorem readText_escape (c : Char) (cs : List Char) :
    readText (escape c ++ cs) = (readText cs).map fun read => (.char c :: read.1, read.2) := by
  unfold escape
  split
  all_goals try (simp [readText, escaped?]; cases readText cs <;> rfl)
  rename_i hquote hbackslash _ _ _ _ _
  split
  · rename_i hcontrol
    have hc : c.toNat < 32 := hcontrol
    show readText ('\\' :: 'u' :: '0' :: '0' :: hexDigit (c.toNat / 16) ::
      hexDigit (c.toNat % 16) :: cs) = _
    rw [readText, hexUnit?_control hc]
    simp only [Option.bind_eq_bind, Option.bind_some, pieceOfUnit_control hc]
    cases readText cs <;> rfl
  · rename_i hplain
    show readText (c :: cs) = _
    rw [readText.eq_def]
    split
    · rename_i h
      cases h
    · rename_i h
      exact absurd (List.cons.inj h).1 hquote
    · rename_i h
      exact absurd (List.cons.inj h).1 hbackslash
    · rename_i h
      exact absurd (List.cons.inj h).1 hbackslash
    · rename_i h
      obtain ⟨rfl, rfl⟩ := List.cons.inj h
      rw [if_neg hplain]
      cases readText _ <;> rfl

/-- **A text is read back up to its closing quote.** -/
theorem readText_escaped (rest : List Char) : ∀ cs : List Char,
    readText (cs.flatMap escape ++ '"' :: rest) = some (cs.map .char, rest)
  | [] => by
    show readText ('"' :: rest) = _
    rw [readText]
    rfl
  | c :: cs => by
    rw [List.flatMap_cons, List.append_assoc, readText_escape, readText_escaped rest cs]
    rfl

theorem joinHalves_chars : ∀ cs : List Char, joinHalves (cs.map .char) = some cs
  | [] => rfl
  | c :: cs => by
    rw [List.map_cons, joinHalves, joinHalves_chars cs]
    rfl

theorem wholeText_chars (s : String) : wholeText (s.toList.map .char) = some s := by
  unfold wholeText
  rw [joinHalves_chars]
  exact congrArg some String.ofList_toList

theorem toList_renderText (s : String) :
    (renderText s).toList = '"' :: (s.toList.flatMap escape ++ ['"']) := by
  unfold renderText
  simp only [String.toList_append, String.toList_ofList, List.append_assoc]
  rfl

theorem printed_escape (c : Char) : Printed (escape c) := by
  unfold escape
  split
  all_goals try decide
  split
  · rename_i hcontrol
    have hc : c.toNat < 32 := hcontrol
    have hhigh := printed_hexDigit (c.toNat / 16) (by omega)
    have hlow := printed_hexDigit (c.toNat % 16) (Nat.mod_lt _ (by decide))
    have hdigits : Printed [hexDigit (c.toNat / 16), hexDigit (c.toNat % 16)] :=
      List.forall_mem_cons.mpr ⟨hhigh, List.forall_mem_singleton.mpr hlow⟩
    exact Printed.append (show Printed ['\\', 'u', '0', '0'] by decide) hdigits
  · rename_i hplain
    intro d hd
    rw [List.mem_singleton.mp hd]
    exact hplain

theorem printed_renderText (s : String) : Printed (renderText s).toList := by
  rw [toList_renderText]
  refine (Printed.append ?_ ?_).cons (by decide)
  · intro c hc
    obtain ⟨d, -, hd⟩ := List.mem_flatMap.mp hc
    exact printed_escape d c hd
  · decide

/-! ### Values -/

/-- A text that begins like a value, has no control character and is read back as the
tree, whatever stands behind it. -/
structure Shown (cs : List Char) (t : Tree) : Prop where
  head : ∃ c ds, cs = c :: ds ∧ isBlank c = false ∧ c ≠ ']'
  printed : Printed cs
  reads : ∀ fuel rest, 2 * cs.length ≤ fuel → EndsNumeral rest →
    readValue fuel (cs ++ rest) = (t, some rest)

theorem skipBlank_cons {c : Char} (h : isBlank c = false) (cs : List Char) :
    skipBlank (c :: cs) = c :: cs :=
  List.dropWhile_cons_of_neg (by simp [h])

/-- A text with nothing behind it is read as its tree. -/
theorem Shown.read_eq {s : String} {t : Tree} (h : Shown s.toList t) : read s = (t, true) := by
  have hread := h.reads (2 * s.toList.length + 2) [] (by omega) (fun c hc => by cases hc)
  rw [List.append_nil] at hread
  unfold read
  simp only [hread]
  rfl

theorem isBlank_digit {c : Char} (h : c = '-' ∨ c.isDigit = true) :
    isBlank c = false ∧ c ≠ ']' := by
  rcases h with rfl | hdigit
  · decide
  · have hlow : 48 ≤ c.toNat := (Char.isDigit_iff_toNat.mp hdigit).1
    have hhigh : c.toNat ≤ 57 := (Char.isDigit_iff_toNat.mp hdigit).2
    constructor
    · unfold isBlank
      simp only [Bool.or_eq_false_iff, beq_eq_false_iff_ne]
      refine ⟨⟨⟨?_, ?_⟩, ?_⟩, ?_⟩ <;> rintro rfl <;> revert hlow <;> decide
    · rintro rfl
      revert hhigh
      decide

/-- A numeral is read as a value. -/
theorem shown_numeral {cs : List Char} {n : Numeral} (h : Spells cs n) :
    Shown cs (.number n) := by
  obtain ⟨c, ds, rfl, hc⟩ := h.head
  refine ⟨⟨c, ds, rfl, isBlank_digit hc⟩, h.printed, fun fuel rest hfuel hrest => ?_⟩
  have hread := h.reads rest hrest
  obtain ⟨fuel, rfl⟩ := Nat.exists_eq_succ_of_ne_zero (n := fuel)
    (by rw [List.length_cons] at hfuel; omega)
  have hother : ∀ d : Char, d ≠ '-' → d.isDigit = false → c ≠ d := by
    rintro d hminus hdigit rfl
    rcases hc with rfl | hc
    · exact hminus rfl
    · rw [hdigit] at hc
      cases hc
  have hne : ∀ (d : Char) (es fs : List Char), c :: es = d :: fs → d ≠ '-' → d.isDigit = false →
      False := fun d es fs heq hminus hdigit => hother d hminus hdigit (List.cons.inj heq).1
  rw [List.cons_append] at hread ⊢
  unfold readValue
  rw [skipBlank_cons (isBlank_digit hc).1]
  split
  case h_7 => rw [hread]
  all_goals
    rename_i heq
    exact (hne _ _ _ heq (by decide) (by decide)).elim

theorem shown_text (s : String) : Shown (renderText s).toList (.text (some s)) := by
  refine ⟨⟨'"', _, toList_renderText s, by decide, by decide⟩, printed_renderText s,
    fun fuel rest hfuel _ => ?_⟩
  rw [toList_renderText] at hfuel ⊢
  obtain ⟨fuel, rfl⟩ := Nat.exists_eq_succ_of_ne_zero (n := fuel)
    (by rw [List.length_cons] at hfuel; omega)
  have hread : readText (s.toList.flatMap escape ++ ['"'] ++ rest) =
      some (s.toList.map .char, rest) := by
    rw [List.append_assoc]
    exact readText_escaped rest s.toList
  simp only [List.cons_append, readValue, skipBlank_cons (show isBlank '"' = false by decide),
    hread, wholeText_chars]

/-- The three words of the language. -/
theorem shown_word : Shown "null".toList .null ∧
    ∀ b : Bool, Shown (if b then "true" else "false").toList (.bool b) := by
  have hfuel : ∀ {n fuel : ℕ}, 2 * (n + 1) ≤ fuel → ∃ f, fuel = f + 1 := fun {n fuel} h =>
    ⟨fuel - 1, by omega⟩
  refine ⟨⟨⟨'n', ['u', 'l', 'l'], rfl, by decide, by decide⟩, by decide,
    fun fuel rest h _ => ?_⟩, fun b => ?_⟩
  · obtain ⟨f, rfl⟩ := hfuel (n := 3) h
    rfl
  · cases b with
    | true =>
      refine ⟨⟨'t', ['r', 'u', 'e'], rfl, by decide, by decide⟩, by decide,
        fun fuel rest h _ => ?_⟩
      obtain ⟨f, rfl⟩ := hfuel (n := 3) h
      rfl
    | false =>
      refine ⟨⟨'f', ['a', 'l', 's', 'e'], rfl, by decide, by decide⟩, by decide,
        fun fuel rest h _ => ?_⟩
      obtain ⟨f, rfl⟩ := hfuel (n := 4) h
      rfl

/-- **An amount is shown as a numeral that reads back to it,** or as `null` if it is not
finite. -/
theorem shown_amount (x : Float) :
    ∃ t, Tells t (.amount x) ∧ Shown (renderAmount x).toList t := by
  unfold renderAmount
  cases hx : x.isFinite with
  | false =>
    rw [if_neg (by decide)]
    exact ⟨.null, .notFinite hx, shown_word.1⟩
  | true =>
    obtain ⟨negative, b, -, hclass, -⟩ := Double.classify_number hx
    obtain ⟨hback, hzero⟩ := b.readsBack_written .toEven
    obtain ⟨n, hn, hsign, hvalue⟩ := spells_decimal negative hzero
    have htext : (Decimal.write amounts x).toList =
        signChars negative ++ ((b.written .toEven).render amounts).toList := by
      unfold Decimal.write
      rw [hclass]
      simp only
      rw [String.toList_append]
      cases negative <;> rfl
    rw [if_pos rfl, htext]
    refine ⟨.number n, .amount n (by rw [hclass, hsign]) ?_, shown_numeral hn⟩
    exact Binary.readsBack_of_value hvalue.symm hback

/-- The tree that the text of an amount is read as. -/
def amountTree (x : Float) : Tree :=
  (read (renderAmount x)).1

theorem shown_amountTree (x : Float) :
    Tells (amountTree x) (.amount x) ∧ Shown (renderAmount x).toList (amountTree x) := by
  obtain ⟨t, htells, hshown⟩ := shown_amount x
  have htree : amountTree x = t := congrArg Prod.fst hshown.read_eq
  rw [htree]
  exact ⟨htells, hshown⟩

/-! ### Lists of values -/

/-- Items that are read back up to the end of their array. -/
structure ShownItems (cs : List Char) (ts : List Tree) : Prop where
  head : ∃ c ds, cs = c :: ds ∧ isBlank c = false ∧ c ≠ ']'
  printed : Printed cs
  reads : ∀ fuel rest, 2 * cs.length + 1 ≤ fuel →
    readItems fuel (cs ++ ']' :: rest) = (ts, some rest)

/-- Members that are read back up to the end of their object. -/
structure ShownMembers (cs : List Char) (ts : List Member) : Prop where
  head : ∃ ds, cs = '"' :: ds
  printed : Printed cs
  reads : ∀ fuel rest, 2 * cs.length + 1 ≤ fuel →
    readMembers fuel (cs ++ '\x7d' :: rest) = (ts, some rest)

theorem endsNumeral_cons {c : Char} (h : c = ',' ∨ c = ']' ∨ c = '\x7d') (cs : List Char) :
    EndsNumeral (c :: cs) := by
  intro d hd
  rw [← Option.some.inj hd]
  rcases h with rfl | rfl | rfl <;> decide

theorem Shown.items {cs : List Char} {t : Tree} (h : Shown cs t) : ShownItems cs [t] := by
  refine ⟨h.head, h.printed, fun fuel rest hfuel => ?_⟩
  obtain ⟨fuel, rfl⟩ := Nat.exists_eq_succ_of_ne_zero (n := fuel) (by omega)
  have hread := h.reads fuel (']' :: rest) (by omega) (endsNumeral_cons (by decide) _)
  unfold readItems
  rw [hread]
  rfl

theorem Shown.consItems {cs ds : List Char} {t : Tree} {ts : List Tree} (h : Shown cs t)
    (hs : ShownItems ds ts) : ShownItems (cs ++ ',' :: ds) (t :: ts) := by
  obtain ⟨d, es, rfl, hblank, hclose⟩ := hs.head
  refine ⟨?_, h.printed.append ?_, fun fuel rest hfuel => ?_⟩
  · obtain ⟨c, cs', rfl, hc⟩ := h.head
    exact ⟨c, _, rfl, hc⟩
  · exact hs.printed.cons (by decide)
  · rw [List.length_append, List.length_cons] at hfuel
    obtain ⟨fuel, rfl⟩ := Nat.exists_eq_succ_of_ne_zero (n := fuel) (by omega)
    have hfirst := h.reads fuel (',' :: (d :: es ++ ']' :: rest)) (by omega)
      (endsNumeral_cons (by decide) _)
    have hrest := hs.reads fuel rest (by omega)
    rw [List.append_assoc]
    unfold readItems
    rw [List.cons_append, hfirst]
    simp only [skipBlank_cons (show isBlank ',' = false by decide), List.cons_append,
      skipBlank_cons hblank]
    split
    · rename_i heq
      exact absurd (List.cons.inj heq).1 hclose
    · rw [← List.cons_append, hrest]

/-- What follows the name and the colon of a member. -/
theorem readMembers_name (name : String) (fuel : ℕ) (cs : List Char) :
    readMembers (fuel + 1) ((renderText name).toList ++ ':' :: cs) =
      match readValue fuel cs with
      | (value, none) => ([(some name, value)], none)
      | (value, some cs) =>
        match skipBlank cs with
        | ',' :: cs => ((some name, value) :: (readMembers fuel cs).1, (readMembers fuel cs).2)
        | '\x7d' :: rest => ([(some name, value)], some rest)
        | _ => ([(some name, value)], none) := by
  have hread : readText (name.toList.flatMap escape ++ ['"'] ++ ':' :: cs) =
      some (name.toList.map .char, ':' :: cs) := by
    rw [List.append_assoc]
    exact readText_escaped _ name.toList
  rw [toList_renderText, List.cons_append, readMembers, skipBlank_cons (by decide)]
  simp only [hread, wholeText_chars]
  rw [skipBlank_cons (by decide)]
  rfl

theorem printed_member (name : String) {cs : List Char} (h : Printed cs) :
    Printed ((renderText name).toList ++ ':' :: cs) :=
  (printed_renderText name).append (h.cons (by decide))

theorem head_member (name : String) (cs : List Char) :
    ∃ ds, (renderText name).toList ++ ':' :: cs = '"' :: ds := by
  rw [toList_renderText]
  exact ⟨_, rfl⟩

theorem Shown.members {cs : List Char} {t : Tree} (h : Shown cs t) (name : String) :
    ShownMembers ((renderText name).toList ++ ':' :: cs) [(some name, t)] := by
  refine ⟨head_member name cs, printed_member name h.printed, fun fuel rest hfuel => ?_⟩
  rw [List.length_append, List.length_cons] at hfuel
  obtain ⟨fuel, rfl⟩ := Nat.exists_eq_succ_of_ne_zero (n := fuel) (by omega)
  have hread := h.reads fuel ('\x7d' :: rest) (by omega) (endsNumeral_cons (by decide) _)
  rw [List.append_assoc, List.cons_append, readMembers_name, hread]
  rfl

theorem Shown.consMembers {cs ds : List Char} {t : Tree} {ts : List Member} (h : Shown cs t)
    (name : String) (hs : ShownMembers ds ts) :
    ShownMembers ((renderText name).toList ++ ':' :: (cs ++ ',' :: ds)) ((some name, t) :: ts) := by
  refine ⟨head_member name _, printed_member name (h.printed.append ?_), fun fuel rest hfuel => ?_⟩
  · exact hs.printed.cons (by decide)
  · simp only [List.length_append, List.length_cons] at hfuel
    obtain ⟨fuel, rfl⟩ := Nat.exists_eq_succ_of_ne_zero (n := fuel) (by omega)
    have hfirst := h.reads fuel (',' :: (ds ++ '\x7d' :: rest)) (by omega)
      (endsNumeral_cons (by decide) _)
    have hrest := hs.reads fuel rest (by omega)
    rw [List.append_assoc, List.cons_append, List.append_assoc, List.cons_append,
      readMembers_name, hfirst]
    show ((some name, t) :: (readMembers fuel (ds ++ '\x7d' :: rest)).1,
      (readMembers fuel (ds ++ '\x7d' :: rest)).2) = _
    rw [hrest]

/-- An array of items that are read back. -/
theorem ShownItems.array {cs : List Char} {ts : List Tree} (h : ShownItems cs ts) :
    Shown ('[' :: (cs ++ [']'])) (.array ts true) := by
  obtain ⟨c, ds, rfl, hblank, hclose⟩ := h.head
  refine ⟨⟨'[', _, rfl, by decide, by decide⟩, ?_, fun fuel rest hfuel _ => ?_⟩
  · exact (h.printed.append (by decide)).cons (by decide)
  · simp only [List.length_append, List.length_cons, List.length_nil] at hfuel
    obtain ⟨fuel, rfl⟩ := Nat.exists_eq_succ_of_ne_zero (n := fuel) (by omega)
    have hread := h.reads fuel rest (by rw [List.length_cons]; omega)
    have htext : '[' :: (c :: ds ++ [']']) ++ rest = '[' :: c :: (ds ++ ']' :: rest) := by simp
    rw [htext]
    unfold readValue
    rw [skipBlank_cons (by decide)]
    simp only
    rw [skipBlank_cons hblank]
    split
    · rename_i heq
      exact absurd (List.cons.inj heq).1 hclose
    · rw [← List.cons_append, hread]
      rfl

/-- An object of members that are read back. -/
theorem ShownMembers.object {cs : List Char} {ts : List Member} (h : ShownMembers cs ts) :
    Shown ('\x7b' :: (cs ++ ['\x7d'])) (.object ts true) := by
  obtain ⟨ds, rfl⟩ := h.head
  refine ⟨⟨'\x7b', _, rfl, by decide, by decide⟩, ?_, fun fuel rest hfuel _ => ?_⟩
  · exact (h.printed.append (by decide)).cons (by decide)
  · simp only [List.length_append, List.length_cons, List.length_nil] at hfuel
    obtain ⟨fuel, rfl⟩ := Nat.exists_eq_succ_of_ne_zero (n := fuel) (by omega)
    have hread := h.reads fuel rest (by rw [List.length_cons]; omega)
    have htext : '\x7b' :: ('"' :: ds ++ ['\x7d']) ++ rest =
        '\x7b' :: '"' :: (ds ++ '\x7d' :: rest) := by simp
    rw [htext]
    unfold readValue
    rw [skipBlank_cons (by decide)]
    simp only
    rw [skipBlank_cons (by decide)]
    split
    · rename_i heq
      exact absurd (List.cons.inj heq).1 (by decide)
    · rw [← List.cons_append, hread]
      rfl

/-- An array or object of nothing. -/
theorem shown_empty : Shown "[]".toList (.array [] true) ∧
    Shown "\x7b\x7d".toList (.object [] true) := by
  have hfuel : ∀ {fuel : ℕ}, 4 ≤ fuel → ∃ f, fuel = f + 1 := fun {fuel} h => ⟨fuel - 1, by omega⟩
  constructor
  · refine ⟨⟨'[', [']'], rfl, by decide, by decide⟩, by decide,
      fun fuel rest h _ => ?_⟩
    obtain ⟨f, rfl⟩ := hfuel h
    rfl
  · refine ⟨⟨'\x7b', ['\x7d'], rfl, by decide, by decide⟩, by decide,
      fun fuel rest h _ => ?_⟩
    obtain ⟨f, rfl⟩ := hfuel h
    rfl

/-! ### Rendered values -/

theorem toList_joined {first : String} {more : List String} (hmore : more ≠ []) :
    (",".intercalate (first :: more)).toList =
      first.toList ++ ',' :: (",".intercalate more).toList := by
  rw [String.intercalate_cons_of_ne_nil hmore, String.toList_append, String.toList_append,
    List.append_assoc]
  rfl

theorem toList_member (name : String) (v : Value) :
    (renderText name ++ ":" ++ v.render).toList =
      (renderText name).toList ++ ':' :: v.render.toList := by
  rw [String.toList_append, String.toList_append, List.append_assoc]
  rfl

mutual

/-- The tree that the text of a value is read as. -/
def Value.tree : Value → Tree
  | .null => .null
  | .bool b => .bool b
  | .integer k => .number (wholeNumeral k)
  | .amount x => amountTree x
  | .text s => .text (some s)
  | .array items => .array (itemTrees items) true
  | .object members => .object (memberTrees members) true

def itemTrees : List Value → List Tree
  | [] => []
  | v :: vs => v.tree :: itemTrees vs

def memberTrees : List (String × Value) → List Member
  | [] => []
  | (name, v) :: ms => (some name, v.tree) :: memberTrees ms

end

theorem memberTrees_append (ns ms : List (String × Value)) :
    memberTrees (ms ++ ns) = memberTrees ms ++ memberTrees ns := by
  induction ms with
  | nil => rfl
  | cons m ms ih => exact congrArg ((some m.1, m.2.tree) :: ·) ih

mutual

/-- The tree of a value tells it. -/
theorem tells_tree : ∀ v : Value, Tells v.tree v
  | .null => .null
  | .bool b => .bool b
  | .integer k => by
    have htells := Tells.integer (wholeNumeral k) rfl
    rwa [signed_wholeNumeral] at htells
  | .amount x => (shown_amountTree x).1
  | .text s => .text s
  | .array items => .array (tells_items items)
  | .object members => .object (tells_members members)

theorem tells_items : ∀ vs : List Value, TellsItems (itemTrees vs) vs
  | [] => .nil
  | v :: vs => .cons (tells_tree v) (tells_items vs)

theorem tells_members : ∀ ms : List (String × Value), TellsMembers (memberTrees ms) ms
  | [] => .nil
  | (name, v) :: ms => .cons name (tells_tree v) (tells_members ms)

end

mutual

/-- **A value is read back from its text.** -/
theorem shown_render : ∀ v : Value, Shown v.render.toList v.tree
  | .null => shown_word.1
  | .bool b => shown_word.2 b
  | .integer k => shown_numeral (spells_integer k)
  | .amount x => (shown_amountTree x).2
  | .text s => shown_text s
  | .array [] => shown_empty.1
  | .array (v :: vs) => by
    rw [Value.render, String.toList_append, String.toList_append]
    exact (shown_items (v :: vs) (List.cons_ne_nil v vs)).array
  | .object [] => shown_empty.2
  | .object (m :: ms) => by
    rw [Value.render, String.toList_append, String.toList_append]
    exact (shown_members (m :: ms) (List.cons_ne_nil m ms)).object

theorem shown_items : ∀ vs : List Value, vs ≠ [] →
    ShownItems (",".intercalate (renderItems vs)).toList (itemTrees vs)
  | [], h => absurd rfl h
  | [v], _ => (shown_render v).items
  | v :: w :: vs, _ => by
    rw [renderItems, toList_joined (by rw [renderItems]; exact List.cons_ne_nil _ _)]
    exact (shown_render v).consItems (shown_items (w :: vs) (List.cons_ne_nil w vs))

theorem shown_members : ∀ ms : List (String × Value), ms ≠ [] →
    ShownMembers (",".intercalate (renderMembers ms)).toList (memberTrees ms)
  | [], h => absurd rfl h
  | [(name, v)], _ => by
    rw [renderMembers, renderMembers, String.intercalate_singleton, toList_member]
    exact (shown_render v).members name
  | (name, v) :: m :: ms, _ => by
    rw [renderMembers, toList_joined (by rw [renderMembers]; exact List.cons_ne_nil _ _),
      toList_member, List.append_assoc, List.cons_append]
    exact (shown_render v).consMembers name (shown_members (m :: ms) (List.cons_ne_nil m ms))

end

/-- **The text of a value is one tree,** with nothing behind it. -/
theorem read_tree (v : Value) : read v.render = (v.tree, true) :=
  (shown_render v).read_eq

/-- There is no control character in the text of a value, and the tree that it is read as
tells the value. -/
theorem read_render (v : Value) :
    Printed v.render.toList ∧ ∃ t, read v.render = (t, true) ∧ Tells t v :=
  ⟨(shown_render v).printed, v.tree, read_tree v, tells_tree v⟩

end Json
end Brokerage
