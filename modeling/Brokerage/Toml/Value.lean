/-
# TOML values and their tables

A document is a list of statements: values under dotted keys, and headers that
say in which table the following values stand. Tables come about in several ways
(by a header, by being on the way of one, by a dotted key), and how a table came
about decides what may still be added to it.

Key definitions: `Value`, `Statement`, `Entries.place`, `document?`.
-/
namespace Brokerage
namespace Toml

inductive Value where
  | text (s : String)
  | integer (n : Int)
  | float (x : Float)
  | bool (b : Bool)
  /-- Dates and times; which one is of no account here. -/
  | moment
  | array (items : List Value)
  | table (entries : List (String × Value))
  deriving Repr

/-- What stands under a key while a document is put together. -/
inductive Node where
  | value (v : Value)
  /-- A table that may be added to. `implied` tables have no header of their own;
  `dotted` ones came about by a dotted key. -/
  | table (implied dotted : Bool) (entries : List (String × Node))
  /-- An array of tables, the latest first. -/
  | series (items : List (List (String × Node)))

abbrev Entries := List (String × Node)

/-- Changes what stands under a key, or enters something under it. -/
def Entries.alter (key : String) (change : Option Node → Option Node) : Entries → Option Entries
  | [] => (change none).map fun node => [(key, node)]
  | (k, node) :: entries =>
    if k = key then (change (some node)).map fun node => (k, node) :: entries
    else (Entries.alter key change entries).map ((k, node) :: ·)

/-- Goes down a path and acts on the table at its end, which is told whether it
came about by a dotted key. Missing tables are made on the way. An array of
tables stands for its latest table. By a dotted key only tables without a header
can be entered. -/
def Entries.within (byKey : Bool) :
    List String → Bool → (Bool → Entries → Option Entries) → Entries → Option Entries
  | [], here, act, entries => act here entries
  | key :: path, _, act, entries =>
    entries.alter key fun
      | none => (Entries.within byKey path byKey act []).map (.table true byKey)
      | some (.value _) => none
      | some (.series []) => none
      | some (.series (latest :: items)) =>
        (Entries.within byKey path false act latest).map fun latest => .series (latest :: items)
      | some (.table implied dotted entries) =>
        if byKey && !implied then none
        else (Entries.within byKey path dotted act entries).map (.table implied dotted)

/-- Enters a value under a dotted key. A key is given once, and a table that came
about otherwise takes no values by a dotted key. -/
def Entries.place (path : List String) (key : String) (v : Value) (entries : Entries) :
    Option Entries :=
  Entries.within true path false (fun dotted entries =>
    if dotted == path.isEmpty then none
    else entries.alter key fun
      | none => some (.value v)
      | some _ => none) entries

inductive Statement where
  | value (path : List String) (key : String) (v : Value)
  | header (path : List String) (key : String)
  | seriesHeader (path : List String) (key : String)

/-- A table gets one header, and none if it was entered by a dotted key. -/
def openTable : Option Node → Option Node
  | none => some (.table false false [])
  | some (.table true false entries) => some (.table false false entries)
  | some _ => none

def openSeries : Option Node → Option Node
  | none => some (.series [[]])
  | some (.series items) => some (.series ([] :: items))
  | some _ => none

/-- Puts the statements together; `current` is the table that values go to. -/
def assemble (current : List String) : List Statement → Entries → Option Entries
  | [], entries => some entries
  | .value path key v :: statements, entries => do
    let entries ← entries.within false current false fun _ table => table.place path key v
    assemble current statements entries
  | .header path key :: statements, entries => do
    let entries ← entries.within false path false fun _ table => table.alter key openTable
    assemble (path ++ [key]) statements entries
  | .seriesHeader path key :: statements, entries => do
    let entries ← entries.within false path false fun _ table => table.alter key openSeries
    assemble (path ++ [key]) statements entries

mutual

def Node.finished : Node → Value
  | .value v => v
  | .table _ _ entries => .table (finishedEntries entries)
  | .series items => .array (finishedItems items).reverse

def finishedEntries : List (String × Node) → List (String × Value)
  | [] => []
  | (key, node) :: entries => (key, node.finished) :: finishedEntries entries

def finishedItems : List (List (String × Node)) → List Value
  | [] => []
  | entries :: items => .table (finishedEntries entries) :: finishedItems items

end

/-- The entries of the document that the statements make up. -/
def document? (statements : List Statement) : Option (List (String × Value)) :=
  (assemble [] statements []).map finishedEntries

/-- The table that is written in place, in braces. -/
def inlineTable? (pairs : List (List String × String × Value)) : Option Value :=
  (pairs.foldlM (fun (entries : Entries) (path, key, v) => entries.place path key v) []).map
    fun entries => .table (finishedEntries entries)

end Toml
end Brokerage
