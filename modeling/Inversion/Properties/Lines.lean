/-
# Property lines

A line of the form `key = value` or `key: value` sets a property; the first of
the two separators counts. Blank characters around the line, the key and the
value do not count, and neither do blank lines and lines that start with `#` or
`!`. A line without a separator, or with nothing in front of it, is an error
with the number of the line; the lines before it keep their effect.
-/
import Inversion.Text.Blank
import Inversion.Text.Lines
import Inversion.Properties

namespace Inversion

/-- A line that sets no property, with its number from one. -/
structure LineError where
  line : Nat
  content : String
  deriving DecidableEq, Repr

/-- What a line asks for. -/
inductive Line where
  | skip
  | entry (key value : String)
  | invalid (content : String)
  deriving DecidableEq, Repr

namespace Line

def isSeparator (c : Char) : Bool :=
  c = '=' || c = ':'

/-- The reading of a line whose outer blanks are gone. -/
def ofTrimmed (cs : List Char) : Line :=
  match cs with
  | [] => .skip
  | c :: _ =>
    if c = '#' ∨ c = '!' then .skip
    else
      match cs.dropWhile (!isSeparator ·) with
      | [] => .invalid (String.ofList cs)
      | _ :: behind =>
        let key := Text.trim (cs.takeWhile (!isSeparator ·))
        if key = [] then .invalid (String.ofList cs)
        else .entry (String.ofList key) (String.ofList (Text.trim behind))

def read (cs : List Char) : Line :=
  ofTrimmed (Text.trim cs)

end Line

namespace Properties

/-- Reads lines in turn, the first of them with the number `n`. -/
def loadFrom (n : Nat) : List (List Char) → Properties → Except LineError Unit × Properties
  | [], p => (.ok (), p)
  | l :: ls, p =>
    match Line.read l with
    | .skip => loadFrom (n + 1) ls p
    | .entry key value => loadFrom (n + 1) ls (p.insert key value)
    | .invalid content => (.error ⟨n, content⟩, p)

/-- Reads a text of property lines into a store. -/
def loadLines (text : String) (p : Properties) : Except LineError Unit × Properties :=
  loadFrom 1 (Text.lines text.toList) p

end Properties
end Inversion
