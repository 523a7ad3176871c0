/-
# Ordering by precedence

The items of a list are put into an order in which each item stands behind the
items it runs after, and which otherwise keeps the order of the list. The items
are visited in turn, and a visit first visits what the item runs after, in the
order of the list. An item that is met again while its own visit is under way
closes a cycle, which is the error.

`visit` keeps the path of the visits under way and the items done so far, in the
order in which they were done. Every visit on the path is one of `n` items, so
`n` visits can be under way at once and no more.
-/

namespace Inversion
namespace Precedence

variable (n : Nat) (after : Nat → Nat → Bool)

/-- The items other than `i` that item `i` runs after. -/
def needs (i : Nat) : List Nat :=
  (List.range n).filter fun j => j ≠ i && after i j

/-- The part of a path from `i` on, and `i` again. -/
def closeCycle (path : List Nat) (i : Nat) : List Nat :=
  path.dropWhile (· ≠ i) ++ [i]

/-- Visits item `i` and adds it, behind what it needs, to the items that are
done. At most `depth` further visits fit on the path. -/
def visit : Nat → List Nat → Nat → List Nat → Except (List Nat) (List Nat)
  | 0, _, _, done => .ok done
  | depth + 1, path, i, done =>
    if i ∈ done then .ok done
    else if i ∈ path then .error (closeCycle path i)
    else
      ((needs n after i).foldlM (fun done j => visit depth (path ++ [i]) j done) done).map
        (· ++ [i])

/-- The numbers below `n` in order of precedence, or a cycle. -/
def order : Except (List Nat) (List Nat) :=
  (List.range n).foldlM (fun done i => visit n after (n + 1) [] i done) []

end Precedence

/-- The keys along a cycle, its first one again at the end. -/
structure SortError where
  chain : List String
  deriving DecidableEq, Repr

def SortError.message (e : SortError) : String :=
  "Found sorting cycle: " ++ " -> ".intercalate e.chain

namespace Precedence

/-- A relation of items as a relation of their places. -/
def placewise {α : Type} (after : α → α → Bool) (items : List α) (i j : Nat) : Bool :=
  match items[i]?, items[j]? with
  | some a, some b => after a b
  | _, _ => false

/-- The places of the items in order of precedence. -/
def places {α : Type} (key : α → String) (after : α → α → Bool) (items : List α) :
    Except SortError (List Nat) :=
  match order items.length (placewise after items) with
  | .ok is => .ok is
  | .error is => .error ⟨is.filterMap fun i => items[i]?.map key⟩

/-- The items in order of precedence. -/
def arrange {α : Type} (key : α → String) (after : α → α → Bool) (items : List α) :
    Except SortError (List α) :=
  (places key after items).map fun is => is.filterMap (items[·]?)

end Precedence

/-- An item that names what it runs after, by keys or by places in the list. -/
structure Errand where
  key : String
  place : Int
  after : List String
  afterPlaces : List Int
  deriving DecidableEq, Repr

namespace Errand

def runsAfter (a b : Errand) : Bool :=
  a.after.contains b.key || a.afterPlaces.contains b.place

def sort (errands : List Errand) : Except SortError (List Nat) :=
  Precedence.places key runsAfter errands

end Errand
end Inversion
