/-
# Building the tables of a TOML document

The lines of a document set keys in the current table and open further tables.
While it is built, a table knows whether it was opened by a line of its own or is
implied by a longer path, and whether that path stood in front of an equals
sign. A table that was opened cannot be opened again, nor be extended by a path
in front of an equals sign; an implied table can be opened once; and a path of a
heading leads through the last element of an array of tables.

Entries stand in the order in which their keys came up. An implied table that is
opened leaves its place and comes back behind the entries that are there then.
-/
import Inversion.Toml.Value

namespace Inversion
namespace Toml

/-- A part of a document under construction. -/
inductive Node where
  | leaf (value : Value)
  | table (implied dotted : Bool) (entries : List (String × Node))
  | tables (elements : List Node)
  deriving Inhabited

namespace Node

/-- Puts a node under a key, in the place of the node that is there or, where
there is none, at the end. -/
def put (key : String) (node : Node) : List (String × Node) → List (String × Node)
  | [] => [(key, node)]
  | (k, n) :: es => if key = k then (key, node) :: es else (k, n) :: put key node es

/-- Takes the node under a key out of a table. -/
def erase (key : String) : Node → Option Node
  | table i d entries => some (table i d (entries.filter fun e => e.1 ≠ key))
  | _ => none

/-- Changes the table at the end of a path, with the implied tables on the way
made where they are missing. -/
def within (dotted : Bool) (change : Node → Option Node) : List String → Node → Option Node
  | [], node => change node
  | key :: path, table i d entries =>
    let step (child : Node) : Option Node :=
      (within dotted change path child).map fun n => table i d (put key n entries)
    match entries.lookup key with
    | none => step (table true dotted [])
    | some (leaf _) => none
    | some (table i' d' es) => if dotted ∧ !i' then none else step (table i' d' es)
    | some (tables elements) =>
      match elements.getLast? with
      | none => none
      | some last =>
        (within dotted change path last).map fun n =>
          table i d (put key (tables (elements.dropLast ++ [n])) entries)
  | _ :: _, _ => none

/-- Sets a key that is not there yet. A path in front of the key must end in a
table that such paths have made. -/
def assign (path : List String) (key : String) (value : Value) : Node → Option Node :=
  within true
    (fun
      | table i d entries =>
        if d = path.isEmpty then none
        else if (entries.lookup key).isSome then none
        else some (table i d (put key (leaf value) entries))
      | _ => none)
    path

mutual
/-- The value of a finished part. -/
def value : Node → Value
  | leaf v => v
  | table _ _ entries => .table (values entries)
  | tables elements => .array (elementValues elements)

def values : List (String × Node) → List (String × Value)
  | [] => []
  | (k, n) :: es => (k, n.value) :: values es

def elementValues : List Node → List Value
  | [] => []
  | n :: ns => n.value :: elementValues ns
end

/-- A table without entries that was opened by a line of its own. -/
def opened : Node :=
  table false false []

end Node

/-- A document up to some line: the tables so far, the current table, its path
and whether it is an element of an array of tables. The current table is put in
its place when the next one is opened. -/
structure Document where
  root : Node
  current : Node
  path : List String
  element : Bool
  deriving Inhabited

namespace Document

def start : Document :=
  ⟨Node.opened, Node.opened, [], false⟩

/-- A document with the current table in its place. -/
def settle (d : Document) : Option Node :=
  match d.path.getLast? with
  | none => some d.current
  | some key =>
    d.root.within false
      (fun
        | .table i dt entries =>
          if d.element then
            match entries.lookup key with
            | none => some (.table i dt (Node.put key (.tables [d.current]) entries))
            | some (.tables es) =>
              some (.table i dt (Node.put key (.tables (es ++ [d.current])) entries))
            | some _ => none
          else some (.table i dt (Node.put key d.current entries))
        | _ => none)
      d.path.dropLast

def assign (path : List String) (key : String) (value : Value) (d : Document) : Option Document :=
  (d.current.assign path key value).map fun current => { d with current := current }

/-- The node under a key at the end of a path, as far as the path leads. -/
def child? (path : List String) (key : String) (root : Node) : Option Node :=
  match path, root with
  | [], .table _ _ entries => entries.lookup key
  | k :: ks, .table _ _ entries =>
    match entries.lookup k with
    | some (.tables es) => es.getLast?.bind (child? ks key)
    | some n => child? ks key n
    | none => none
  | _, _ => none

/-- Opens the table of a heading: a new one, or an implied one with what it
holds already, which is taken out of its place. -/
def openTable (path : List String) (d : Document) : Option Document := do
  let root ← d.settle
  let key ← path.getLast?
  let unchanged ← root.within false some path.dropLast
  match child? path.dropLast key unchanged with
  | none => pure ⟨unchanged, Node.opened, path, false⟩
  | some (.table true false entries) =>
    let rest ← unchanged.within false (Node.erase key) path.dropLast
    pure ⟨rest, .table false false entries, path, false⟩
  | some _ => none

/-- Opens the next element of an array of tables. -/
def openElement (path : List String) (d : Document) : Option Document := do
  let root ← d.settle
  let key ← path.getLast?
  let unchanged ← root.within false some path.dropLast
  match child? path.dropLast key unchanged with
  | none => pure ⟨unchanged, Node.opened, path, true⟩
  | some (.tables _) => pure ⟨unchanged, Node.opened, path, true⟩
  | some _ => none

end Document
end Toml
end Inversion
