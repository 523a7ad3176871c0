/-
# Instances, and the values made of them

An instance is what a bean holds once it is created. It is numbered when it is
made, and one that a constructor made remembers the values that the constructor
received. A window is the instance through which beans look into their container
while it runs.

A value is what a constructor, a configuration or a question to a window gets
for an answer. An instance inside a value is abridged to its `brief`, except in
the answers of a window.
-/
import Inversion.Error
import Inversion.Properties
import Inversion.Text.Quoted

namespace Inversion

mutual
inductive Instance where
  | part (serial : Nat) (label : String) (received : Option (List Value))
  | number (serial : Nat)
  | text (serial : Nat) (label : String)
  | window (properties : Properties)

inductive Value where
  | absent
  | flag (b : Bool)
  | count (n : Nat)
  | text (s : String)
  | list (items : List Value)
  | whole (i : Instance)
  | success (value : Value)
  | failure (cause : WireError)
end

/-- What an instance of a type shows of itself. -/
inductive Shape where
  | part
  | number
  | text
  deriving DecidableEq, Repr

def Shape.make (shape : Shape) (serial : Nat) (label : String) (received : Option (List Value)) :
    Instance :=
  match shape with
  | part => .part serial label received
  | number => .number serial
  | text => .text serial label

namespace Instance

def brief : Instance → Value
  | part serial _ _ => .count serial
  | number serial => .count serial
  | text _ label => .text label
  | window _ => .text "pandora"

/-- The brief as a text, where the label of a text stands in quotes. -/
def briefText : Instance → String
  | part serial _ _ => toString serial
  | number serial => toString serial
  | text _ label => Text.quoted label
  | window _ => Text.quoted "pandora"

end Instance

/-- How a bean's instance becomes an instance of another type: as it is, or as a
text that describes it. -/
inductive Cast where
  | itself
  | described
  deriving DecidableEq, Repr

def Cast.apply (cast : Cast) (i : Instance) : Instance :=
  match cast with
  | itself => i
  | described =>
    let serial := match i with
      | .part serial _ _ => serial
      | .number serial => serial
      | .text serial _ => serial
      | .window _ => 0
    .text serial ("as string " ++ i.briefText)

end Inversion
