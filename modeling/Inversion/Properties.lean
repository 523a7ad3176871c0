/-
# The property store

A store gives texts to keys and lists its entries in the order of the keys. The
order is part of the type, so two stores with the same entries are equal.
`insert` replaces the text of a key that is there already.
-/
import Inversion.Decimal.Shortest
import Inversion.Entries

namespace Inversion

structure Properties where
  entries : List (String × String)
  ascending : entries.Pairwise (·.1 < ·.1)
  deriving DecidableEq

/-- What a property may be set to. -/
inductive Setting where
  | absent
  | flag (b : Bool)
  | integer (i : Int)
  | real (x : Double)
  | text (s : String)
  deriving DecidableEq, Repr

/-- The text that a setting is stored as. -/
def Setting.stored : Setting → String
  | absent => ""
  | flag b => if b then "true" else "false"
  | integer i => toString i
  | real x => x.display
  | text s => s

namespace Properties

def empty : Properties :=
  ⟨[], List.Pairwise.nil⟩

instance : Inhabited Properties :=
  ⟨empty⟩

def insert (p : Properties) (key value : String) : Properties :=
  ⟨insertEntry key value p.entries, pairwise_insertEntry p.ascending⟩

def get? (p : Properties) (key : String) : Option String :=
  p.entries.lookup key

def contains (p : Properties) (key : String) : Bool :=
  (p.get? key).isSome

def keys (p : Properties) : List String :=
  p.entries.map (·.1)

def size (p : Properties) : Nat :=
  p.entries.length

def isEmpty (p : Properties) : Bool :=
  p.entries.isEmpty

/-- Sets the entries of a list one after the other, so that a later one replaces
an earlier one of the same key. -/
def insertAll (p : Properties) (es : List (String × String)) : Properties :=
  es.foldl (fun p e => p.insert e.1 e.2) p

def ofList (es : List (String × String)) : Properties :=
  empty.insertAll es

end Properties
end Inversion
