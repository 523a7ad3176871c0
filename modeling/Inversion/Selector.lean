/-
# Selectors

A selector says which beans are meant: those of a name, those of a type, those
of both, or those that a text of the form `type:name` describes, where the type
may be given by its short name and the name may be left out.

`Selector.parse` reads a text as a selector, and `Selector.display` writes a
selector as a text.
-/
import Inversion.TypeName

namespace Inversion

inductive Selector where
  | name (name : String)
  | type (type : TypeName)
  | typedName (type : TypeName) (name : String)
  | parsed (typeText : String) (name : Option String)
  deriving DecidableEq, Repr, Inhabited

namespace Selector

/-- The type and the name that a text gives: the last colon stands between
them, unless the type would be empty or end with a colon itself, as in the path
of a type. -/
def parse (s : String) : Selector :=
  match Text.splitLast ':' s.toList with
  | some (before, behind) =>
    if before = [] ∨ before.getLast? = some ':' then .name s
    else .parsed (String.ofList before) (if behind = [] then none else some (String.ofList behind))
  | none => .name s

def display : Selector → String
  | name n => n
  | type t => t.name
  | typedName t n => t.name ++ ":" ++ n
  | parsed t n => t ++ ":" ++ n.getD ""

/-- The text of the type, where the selector gives one. -/
def typeText? : Selector → Option String
  | name _ => none
  | type t => some t.name
  | typedName t _ => some t.name
  | parsed t _ => some t

/-- The name, where the selector gives one. -/
def name? : Selector → Option String
  | name n => some n
  | type _ => none
  | typedName _ n => some n
  | parsed _ n => n

end Selector
end Inversion
