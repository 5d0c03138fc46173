/-
# Tables

A finite map kept as a list of entries with distinct keys, in the order in which
the keys were first entered.

Key definitions: `Table`, `Table.get?`, `Table.insert`, `Table.erase`.
-/
namespace Brokerage

structure Table (κ β : Type) where
  entries : List (κ × β)
  deriving Repr

namespace Table

variable {κ β : Type} [DecidableEq κ]

def empty : Table κ β := ⟨[]⟩

instance : EmptyCollection (Table κ β) := ⟨empty⟩

def lookup (key : κ) : List (κ × β) → Option β
  | [] => none
  | (k, b) :: es => if k = key then some b else lookup key es

def get? (t : Table κ β) (key : κ) : Option β :=
  lookup key t.entries

def contains (t : Table κ β) (key : κ) : Bool :=
  (t.get? key).isSome

def size (t : Table κ β) : Nat :=
  t.entries.length

/-- The value under the key is replaced where it stands, or entered last. -/
def put (key : κ) (b : β) : List (κ × β) → List (κ × β)
  | [] => [(key, b)]
  | (k, c) :: es => if k = key then (k, b) :: es else (k, c) :: put key b es

def insert (t : Table κ β) (key : κ) (b : β) : Table κ β :=
  ⟨put key b t.entries⟩

def erase (t : Table κ β) (key : κ) : Table κ β :=
  ⟨t.entries.filter fun e => e.1 ≠ key⟩

/-- Of two entries with one key the later one stays. -/
def ofList (entries : List (κ × β)) : Table κ β :=
  entries.foldl (fun t e => t.insert e.1 e.2) ∅

def map {γ : Type} (f : β → γ) (t : Table κ β) : Table κ γ :=
  ⟨t.entries.map fun e => (e.1, f e.2)⟩

/-- Two tables are the same when they hold equal values under the same keys,
whatever the order of entry. -/
instance [BEq β] : BEq (Table κ β) where
  beq t u := t.size == u.size && t.entries.all fun e =>
    match u.get? e.1 with
    | some b => e.2 == b
    | none => false

end Table
end Brokerage
