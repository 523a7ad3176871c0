/-
# Beans

A bean is a registered component: the type of its instance, how the instance is
made, when the bean takes part, and the types and names under which it can be
found. An object bean holds its instance from the start; the instance of any other
is made by a constructor from the arguments that it asks for.

The identity of a bean is its type with its name, or with the site of its
registration if it has no name.
-/
import Inversion.Condition

namespace Inversion

/-- Where in the program a bean or a configuration was registered. Descriptions put sites in
parentheses, and a file has none in its path. -/
@[ext]
structure Site where
  file : String
  line : Nat
  column : Nat
  plain : '(' ∉ file.toList := by decide
  deriving DecidableEq, Repr

namespace Site

def text (s : Site) : String :=
  s.file ++ ":" ++ toString s.line ++ ":" ++ toString s.column

/-- A line of the main file. -/
def main (line : Nat) : Site where
  file := "src/main.rs"
  line := line
  column := 5

end Site

/-- A question to a window. -/
inductive Question where
  | find (selector : Selector)
  | one (type : TypeName)
  | named (type : TypeName) (name : String)
  | every (type : TypeName)
  | property (key : String)
  | cancelled
  | keys
  deriving DecidableEq, Repr

/-- A bean of another container, where it was deleted. -/
structure Stranger where
  type : TypeName
  id : String
  deriving DecidableEq, Repr

/-- What a constructor or a configuration asks for. -/
inductive Arg where
  | one (type : TypeName)
  | every (type : TypeName)
  | named (type : TypeName) (name : String)
  | properties (keys : List String)
  | token
  /-- An argument whose failure is a value. -/
  | attempt (arg : Arg)
  | find (selector : Selector)
  /-- The path of the wiring, the number of properties, and whether the context
  is cancelled. -/
  | surroundings
  | stranger (stranger : Stranger)
  | window (questions : List Question)
  deriving DecidableEq, Repr

/-- A hook that runs on an instance and may fail. -/
structure Hook where
  failure : Option String
  deriving DecidableEq, Repr

structure Recipe where
  args : List Arg
  shape : Shape
  label : String
  failure : Option String
  deriving DecidableEq, Repr

inductive Source where
  | object (i : Instance)
  | constructor (recipe : Recipe)
  | window

structure Bean where
  type : TypeName
  site : Site
  name : Option String
  source : Source
  conditions : List Condition
  /-- The declared exports, without repetition in the order of types. -/
  exports : List TypeName
  /-- The types that the instance can be cast to, the latest declaration first. -/
  casts : List (TypeName × Cast)
  /-- The bean's own type is one of them. -/
  owns : (casts.lookup type).isSome
  composite : Bool
  init : Option Hook
  destroy : Option Hook

namespace Bean

/-- A bean without any options. It can be cast to its own type. -/
def plain (type : TypeName) (site : Site) (source : Source) : Bean :=
  { type, site, source, name := none, conditions := [], exports := [], casts := [(type, .itself)],
    owns := by rw [List.lookup_cons_self]; rfl, composite := false, init := none, destroy := none }

def declareExport (t : TypeName) (b : Bean) : Bean :=
  { b with exports := insertType t b.exports }

def declareCast (t : TypeName) (cast : Cast) (b : Bean) : Bean :=
  { b with
    casts := (t, cast) :: b.casts
    owns := by
      rw [List.lookup_cons]
      split
      · rfl
      · exact b.owns }

def id (b : Bean) : String :=
  match b.name with
  | some name => b.type.name ++ ":" ++ name
  | none => b.type.name ++ "@" ++ b.site.text

def description (b : Bean) : String :=
  b.id ++ " (" ++ b.site.text ++ ")"

def castTo? (b : Bean) (t : TypeName) : Option Cast :=
  b.casts.lookup t

def implements (b : Bean) (t : TypeName) : Bool :=
  (b.castTo? t).isSome

theorem implements_type (b : Bean) : b.implements b.type :=
  b.owns

/-- Whether the bean could be found under the type once it is resolved. -/
def mayProvide (b : Bean) (t : TypeName) : Bool :=
  b.type == t || b.exports.contains t || b.composite

end Bean

/-- A configuration function, run before the beans are wired. One without a name
of its own is called by its site. -/
structure Configuration where
  site : Site
  name : Option String
  args : List Arg
  before : List String
  after : List String
  conditions : List Condition
  label : String
  failure : Option String

namespace Configuration

def title (c : Configuration) : String :=
  c.name.getD c.site.text

def runsAfter (a b : Configuration) : Bool :=
  a.after.contains b.title || b.before.contains a.title

end Configuration

/-- The type of windows. -/
def windowType : TypeName :=
  .of "beanery::pandora::Pandora"

end Inversion
