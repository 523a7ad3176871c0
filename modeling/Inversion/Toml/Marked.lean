/-
# Normal form of a TOML document

A table whose first key in the document is `momentMark` stands for a moment: the
mark holds the moment's text, and the other entries of the table do not count. A
mark that holds anything else is a fault of the document. A table with the mark in
another place is a table like all others.

In normal form a document has the moments in place of the marked tables, and the
entries of each table stand in the order of their keys.
-/
import Inversion.Entries
import Inversion.Toml.Scan

namespace Inversion
namespace Toml

/-- The key that makes a table a moment. -/
def momentMark : String :=
  "$__toml_private_datetime"

/-- What the mark of a table holds, if its first key is the mark. -/
def marked? : List (String × Value) → Option Value
  | [] => none
  | (k, v) :: _ => if k = momentMark then some v else none

/-- The moment whose text a value is. -/
def Value.moment? : Value → Option Moment
  | .scalar (.text s) => Moment.ofText? s
  | _ => none

mutual
/-- The normal form of a value below the root, none if a mark does not hold the
text of a moment. -/
def Value.normal? : Value → Option Value
  | .scalar s => some (.scalar s)
  | .array items => (normalItems? items).map .array
  | .table entries =>
    match marked? entries with
    | some v => v.moment?.map fun m => .scalar (.moment m)
    | none => (normalEntries? entries).map .table

def normalItems? : List Value → Option (List Value)
  | [] => some []
  | v :: vs => do
    let v ← v.normal?
    let vs ← normalItems? vs
    pure (v :: vs)

def normalEntries? : List (String × Value) → Option (List (String × Value))
  | [] => some []
  | (k, v) :: es => do
    let v ← v.normal?
    let es ← normalEntries? es
    pure (insertEntry k v es)
end

end Toml
end Inversion
