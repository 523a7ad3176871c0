/-
# Conditions

A condition decides, while the container is refreshed, whether a bean or a
configuration takes part. It looks at the properties and at the other beans, or
it is a group or the negation of further conditions. Any other condition is a
probe: a procedure that may look at the properties, look up beans, find out
whether the container's context is cancelled, write to the journal, answer or
fail. The failure of a lookup is that of the probe, unless the probe attempts
the lookup: then it goes on with what the lookup came to. A probe goes by the
answers that it gets; it has no state and changes nothing but the journal.
-/
import Inversion.Event

namespace Inversion

inductive Probe where
  | answer (b : Bool)
  | fail (message : String)
  /-- Fails with a cause that the probe has at hand. -/
  | raise (cause : Fault)
  | note (entry : Entry) (next : Probe)
  | find (selector : Selector) (next : List String → Probe)
  /-- A lookup whose failure is a value. -/
  | attempt (selector : Selector) (next : Except Fault (List String) → Probe)
  | properties (next : Properties → Probe)
  | cancelled (next : Bool → Probe)

/-- How many beans a condition expects to find. -/
inductive Expectation where
  | some
  | none
  | single
  deriving DecidableEq, Repr

def Expectation.met (expectation : Expectation) (found : Nat) : Bool :=
  match expectation with
  | some => 0 < found
  | none => found = 0
  | single => found = 1

inductive Condition where
  /-- The property has the value if one is given, or any; `ifMissing` is the
  answer without the property. -/
  | property (key : String) (value : Option String) (ifMissing : Bool)
  | missingProperty (key : String)
  | beans (expectation : Expectation) (selector : Selector)
  | not (condition : Condition)
  | all (conditions : List Condition)
  | any (conditions : List Condition)
  | probe (probe : Probe)
  /-- The condition, with its failure put into a context. -/
  | context (message : String) (condition : Condition)

end Inversion
