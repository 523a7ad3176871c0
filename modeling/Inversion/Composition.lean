/-
# Compositions

A type that is put together from parts lists them as fields. `autoExport`
collects the interfaces that the fields offer for export, those of embedded parts
included, at any depth. A field that is injected is opaque: nothing behind it
counts. It is an error to export what is no interface, to export and inject the
same field, and to embed a part inside itself.
-/
import Inversion.TypeName

namespace Inversion

structure Field where
  name : String
  type : TypeName
  embedded : Bool
  exported : Bool
  injected : Bool
  deriving DecidableEq, Repr

inductive ExportError where
  | notInterface (field : String) (type : TypeName)
  | exportWithInject (field : String)
  | embeddingCycle (field : String) (type : TypeName)
  deriving DecidableEq, Repr

def ExportError.message : ExportError → String
  | notInterface field type =>
    "field `" ++ field ++ "` is marked for export but `" ++ type.name ++ "` isn't an interface"
  | exportWithInject field => "field `" ++ field ++ "` can't be both exported and injected"
  | embeddingCycle field type =>
    "field `" ++ field ++ "` embeds `" ++ type.name ++ "` inside itself"

/-- The fields of the types that have any. -/
structure Compositions where
  fields : List (TypeName × List Field)
  deriving DecidableEq, Repr, Inhabited

def Compositions.of (c : Compositions) (t : TypeName) : List Field :=
  (c.fields.lookup t).getD []

/-- Adds a type to a list of types without repetition, in the order of their
names. -/
def insertType (t : TypeName) : List TypeName → List TypeName
  | [] => [t]
  | u :: us => if t = u then u :: us else if t.le u then t :: u :: us else u :: insertType t us

namespace Composition

/-- Adds what one field offers, with `walk` for the fields of an embedded part. -/
def addField (walk : List TypeName → List Field → List TypeName → Except ExportError (List TypeName))
    (c : Compositions) (embedding : List TypeName) (exports : List TypeName) (f : Field) :
    Except ExportError (List TypeName) :=
  if f.exported then
    if !f.type.isInterface then .error (.notInterface f.name f.type)
    else if f.injected then .error (.exportWithInject f.name)
    else .ok (insertType f.type exports)
  else if f.injected ∨ !f.embedded then .ok exports
  else if f.type ∈ embedding then .error (.embeddingCycle f.name f.type)
  else walk (f.type :: embedding) (c.of f.type) exports

/-- Adds what the fields offer, inside the parts of `embedding`. Parts with
fields that stand inside one another are different types of `c`, so their number
bounds the depth. -/
def walk (c : Compositions) :
    Nat → List TypeName → List Field → List TypeName → Except ExportError (List TypeName)
  | 0, _, _, exports => .ok exports
  | depth + 1, embedding, fields, exports =>
    fields.foldlM (addField (walk c depth) c embedding) exports

end Composition

/-- The interfaces that a type with these fields exports. -/
def autoExport (c : Compositions) (fields : List Field) : Except ExportError (List TypeName) :=
  Composition.walk c (c.fields.length + 2) [] fields []

end Inversion
