/-
# Tables as properties

A table is flattened into a store: each leaf is kept under its path, the keys of
nested tables joined by points and the places in arrays in square brackets.
`leaves` lists the paths and the texts of the leaves in the order of the
document, in which a later leaf replaces an earlier one of the same path.
-/
import Inversion.Properties
import Inversion.Toml.Value

namespace Inversion
namespace Toml

mutual
/-- The leaves of a value that stands at `path`. -/
def Value.leaves (path : String) : Value → List (String × String)
  | .scalar s => [(path, s.display)]
  | .array items => itemLeaves path 0 items
  | .table entries => entryLeaves path entries

def itemLeaves (path : String) (i : Nat) : List Value → List (String × String)
  | [] => []
  | v :: vs => v.leaves (path ++ "[" ++ toString i ++ "]") ++ itemLeaves path (i + 1) vs

def entryLeaves (path : String) : List (String × Value) → List (String × String)
  | [] => []
  | (k, v) :: es => v.leaves (path ++ "." ++ k) ++ entryLeaves path es
end

/-- The leaves of the entries of a document, whose keys stand alone. -/
def rootLeaves : List (String × Value) → List (String × String)
  | [] => []
  | (k, v) :: es => v.leaves k ++ rootLeaves es

end Toml

namespace Properties

def loadTable (entries : List (String × Toml.Value)) (p : Properties) : Properties :=
  p.insertAll (Toml.rootLeaves entries)

end Properties
end Inversion
