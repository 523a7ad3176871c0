/-
# Properties of a type

`Properties.getAs` reads the text of a property as a value of a wanted type. A
missing property has no value, and a text that is no value of the type is an
error.
-/
import Inversion.Decimal.Numeral
import Inversion.Properties

namespace Inversion

/-- The types that a property can be read as. -/
inductive Wanted where
  | unsigned (width : Nat)
  | signed (width : Nat)
  | flag
  | character
  | text
  | real
  deriving DecidableEq, Repr

namespace Wanted

def name : Wanted → String
  | unsigned width => "u" ++ toString width
  | signed width => "i" ++ toString width
  | flag => "bool"
  | character => "char"
  | text => "alloc::string::String"
  | real => "f64"

/-- The value of a property, where reading succeeds. -/
inductive Reading where
  | integer (i : Int)
  | flag (b : Bool)
  | text (s : String)
  | real (x : Double)
  deriving DecidableEq, Repr

def read (w : Wanted) (s : String) : Option Reading :=
  match w with
  | unsigned width => (Numeral.integer? 0 (Nat.pow 2 width - 1 : Nat) s).map .integer
  | signed width =>
    let bound : Int := Nat.pow 2 (width - 1)
    (Numeral.integer? (-bound) (bound - 1) s).map .integer
  | flag => if s = "true" then some (.flag true) else if s = "false" then some (.flag false) else none
  | character => if s.toList.length = 1 then some (.text s) else none
  | text => some (.text s)
  | real => (Numeral.double? s).map .real

end Wanted

/-- A property whose text is no value of the wanted type. -/
structure ReadError where
  key : String
  value : String
  wanted : Wanted
  deriving DecidableEq, Repr

def ReadError.message (e : ReadError) : String :=
  "Property `" ++ e.key ++ "` has value `" ++ e.value ++ "` that can't be parsed as " ++ e.wanted.name

def Properties.getAs (w : Wanted) (key : String) (p : Properties) :
    Except ReadError (Option Wanted.Reading) :=
  match p.get? key with
  | none => .ok none
  | some s =>
    match w.read s with
    | some r => .ok (some r)
    | none => .error ⟨key, s, w⟩

end Inversion
