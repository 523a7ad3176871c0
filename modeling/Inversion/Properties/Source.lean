/-
# Files of properties

The name of a file tells its format: TOML for the extension `toml`, property
lines for any other or none. A file that is missing or is no valid UTF-8 cannot
be read. An error in a TOML document leaves the store as it was; an error in
property lines leaves what the lines before it set.
-/
import Inversion.Properties.Flatten
import Inversion.Properties.Lines
import Inversion.Text.Cut
import Inversion.Toml.Reader

namespace Inversion

inductive SourceFormat where
  | lines
  | toml
  deriving DecidableEq, Repr

namespace SourceFormat

/-- The segments of a path, without empty ones and those that stand for the same
directory. -/
def segments : List Char → List (List Char)
  | cs =>
    let pieces := cs.foldr
      (fun c acc =>
        if c = '/' then [] :: acc
        else
          match acc with
          | [] => [[c]]
          | p :: ps => (c :: p) :: ps)
      [[]]
    pieces.filter fun p => p ≠ [] ∧ p ≠ ['.']

/-- What follows the last point of a file's name, unless the point comes first or
the name stands for the parent directory. -/
def extension? (path : List Char) : Option (List Char) :=
  match (segments path).getLast? with
  | none => none
  | some name =>
    if name = ['.', '.'] then none
    else
      match Text.splitLast '.' name with
      | some (before, behind) => if before = [] then none else some behind
      | none => none

def ofPath (path : String) : SourceFormat :=
  if extension? path.toList = some "toml".toList then .toml else .lines

end SourceFormat

/-- What stands where a file is looked for. -/
inductive FileContent where
  | missing
  | bytes (content : ByteArray)

inductive LoadError where
  | unreadable
  | toml
  | line (cause : LineError)
  deriving DecidableEq, Repr

def LineError.message (e : LineError) : String :=
  "Invalid property line " ++ toString e.line ++ ": `" ++ e.content ++ "`"

namespace Properties

/-- Reads a text of a format into a store, with `read` for the tables of TOML documents. -/
def loadWith (read : String → Option (List (String × Toml.Value))) (format : SourceFormat)
    (text : String) (p : Properties) : Except LoadError Unit × Properties :=
  match format with
  | .lines =>
    match p.loadLines text with
    | (.ok (), p) => (.ok (), p)
    | (.error e, p) => (.error (.line e), p)
  | .toml =>
    match read text with
    | some entries => (.ok (), p.loadTable entries)
    | none => (.error .toml, p)

def load (format : SourceFormat) (text : String) (p : Properties) :
    Except LoadError Unit × Properties :=
  p.loadWith Toml.parse format text

/-- Reads a file into a store. -/
def loadFile (name : String) (content : FileContent) (p : Properties) :
    Except LoadError Unit × Properties :=
  match content with
  | .missing => (.error .unreadable, p)
  | .bytes content =>
    match String.fromUTF8? content with
    | some text => p.load (SourceFormat.ofPath name) text
    | none => (.error .unreadable, p)

end Properties
end Inversion
