/-
# Names of types

The types of the instances that a container holds are known by their full
names, such as `app::db::Repo`, `app::Wrap<u8>` or `dyn app::Greeter`. Two types may
have one full name, as the types that two blocks of a function declare; a number tells
them apart. An interface is a type whose name starts with the word `dyn`.

The short name of a type leaves out the word `dyn`, further bounds after a plus
sign, and the path before the last segment; the arguments of a generic type stay
with the segment. A text refers to a type if it is its full or its short name.
-/
import Inversion.Text.Cut

namespace Inversion

structure TypeName where
  name : String
  number : Nat
  deriving DecidableEq, Repr, Inhabited

namespace TypeName

/-- The first type of a name. -/
def of (name : String) : TypeName :=
  ⟨name, 0⟩

def isInterface (t : TypeName) : Bool :=
  "dyn ".toList.isPrefixOf t.name.toList

/-- The name without the leading `dyn`. -/
def bare (cs : List Char) : List Char :=
  if "dyn ".toList.isPrefixOf cs then cs.drop 4 else cs

/-- The short name. The path is looked for before the first argument list only,
and only the first bound is kept. -/
def shortChars (cs : List Char) : List Char :=
  let bound := Text.beforeFirst " + ".toList (bare cs)
  let head := Text.beforeFirst ['<'] bound
  match Text.pastLastPair ':' head with
  | some n => bound.drop n
  | none => bound

def short (t : TypeName) : String :=
  String.ofList (shortChars t.name.toList)

/-- Whether a text refers to the type. -/
def answersTo (t : TypeName) (text : String) : Bool :=
  t.name == text || t.short == text

/-- Types are in the order of their full names, and those of one name in the order of their
numbers. -/
def Precedes (a b : TypeName) : Prop :=
  a.name < b.name ∨ a.name = b.name ∧ a.number < b.number

instance (a b : TypeName) : Decidable (a.Precedes b) :=
  inferInstanceAs (Decidable (_ ∨ _))

def le (a b : TypeName) : Bool :=
  a = b ∨ a.Precedes b

end TypeName
end Inversion
