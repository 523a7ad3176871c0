/-
# Injectors

An injector turns a resolved bean into a live instance. It is a procedure for the
bean that it has in hand, step by step: it may look at the beans and at what has
happened, find beans, get instances of them and wire them, as constructors do, and
it goes on with the answer, also with a failure. It may create a bean, enter beans
on the path of those under construction and leave them, keep a bean for its
destroyer to be run, write to the journal, or refuse.

An injector has no state of its own: what it could remember is in the history.

The standard injector builds every bean once: it leaves a wired bean alone,
refuses one that is under construction as a cycle, and one that is not resolved.
The other injectors of this module watch the standard one, or replace it.
-/
import Inversion.Bean

namespace Inversion

/-- What a bean shows of itself as it is registered. -/
structure Label where
  id : String
  name : Option String
  type : TypeName
  site : Site
  hasDestroyer : Bool
  deriving DecidableEq, Repr

def Bean.label (b : Bean) : Label :=
  ⟨b.id, b.name, b.type, b.site, b.destroy.isSome⟩

/-- What an injector can see. Beans are meant by their places. -/
structure View where
  beans : List Label
  status : Nat → Status
  exports : Nat → List TypeName
  /-- The instance of a bean as one of a type, if it has one. -/
  instance? : Nat → TypeName → Option Instance
  /-- The beans under construction, the innermost first. -/
  stack : List Nat
  /-- Their identities, outermost first. -/
  path : List String
  /-- What has happened, the latest first. -/
  history : List Event
  properties : Properties
  cancelled : Bool

inductive Procedure where
  | done
  | refuse (cause : WireError)
  | look (next : View → Procedure)
  | find (selector : Selector) (next : Except WireError (List Nat) → Procedure)
  /-- Gets the instance of the only bean of a type, or of a type and a name. -/
  | get (type : TypeName) (name : Option String) (next : Except WireError Instance → Procedure)
  | getAll (type : TypeName) (next : Except WireError (List Instance) → Procedure)
  /-- Hands a bean to the injector. -/
  | wire (b : Nat) (next : Except WireError Unit → Procedure)
  | create (b : Nat) (next : Except WireError Unit → Procedure)
  | enter (b : Nat) (next : Procedure)
  | leave (next : Procedure)
  | keepDestroyer (b : Nat) (next : Procedure)
  | note (entry : Entry) (next : Procedure)
  /-- Reports a bean as wired. -/
  | report (b : Nat) (next : Procedure)

namespace Procedure

/-- Creates a bean and refuses if that fails. -/
def created (b : Nat) (next : Procedure) : Procedure :=
  create b fun
    | .ok () => next
    | .error cause => refuse cause

/-- One procedure after another. -/
def andThen : Procedure → Procedure → Procedure
  | done, q => q
  | refuse cause, _ => refuse cause
  | look next, q => look fun view => (next view).andThen q
  | find sel next, q => find sel fun found => (next found).andThen q
  | get t name next, q => get t name fun i => (next i).andThen q
  | getAll t next, q => getAll t fun is => (next is).andThen q
  | wire b next, q => wire b fun r => (next r).andThen q
  | create b next, q => create b fun r => (next r).andThen q
  | enter b p, q => enter b (p.andThen q)
  | leave p, q => leave (p.andThen q)
  | keepDestroyer b p, q => keepDestroyer b (p.andThen q)
  | note entry p, q => note entry (p.andThen q)
  | report b p, q => report b (p.andThen q)

end Procedure

structure Injector where
  /-- The procedure for a bean, given its place, its identity and its type. -/
  procedure : Nat → String → TypeName → Procedure
  /-- How many wirings fit inside one another, beyond one for each bean. -/
  depth : Nat := 0

namespace Injector

def standard : Injector where
  procedure b id _ := .look fun view =>
    match view.status b with
    | .wired => .done
    | .creating => .refuse (.cycle (view.path ++ [id]))
    | .resolved => .enter b (.created b (.keepDestroyer b (.leave (.report b .done))))
    | _ => .refuse (.notResolved id)

instance : Inhabited Injector :=
  ⟨standard⟩

/-- Notes the bean and leaves it unwired. -/
def recording : Injector where
  procedure _ id _ := .note (.text ("wire " ++ id)) .done

/-- Notes the bean with its status and the path, then goes the standard way. -/
def logging : Injector where
  procedure b id type := .look fun view =>
    .note (.text ("wire " ++ id ++ " " ++ (view.status b).name ++ " [" ++ pathText view.path ++ "]"))
      (standard.procedure b id type)

/-- Goes the standard way, then keeps the bean's destroyer twice more. -/
def double : Injector where
  procedure b id type :=
    (standard.procedure b id type).andThen (.keepDestroyer b (.keepDestroyer b .done))

/-- Only creates a resolved bean, off the path and without its destroyer. -/
def bare : Injector where
  procedure b id type := .look fun view =>
    match view.status b with
    | .resolved => .created b .done
    | _ => standard.procedure b id type

/-- Trusts the path alone, so that a bean is created anew for each one who asks
for it. -/
def guarded : Injector where
  procedure b _ _ := .look fun view =>
    if view.stack.contains b then .refuse (.cycle (view.path.modifyHead ("guard " ++ ·)))
    else .enter b (.created b (.keepDestroyer b (.leave .done)))

/-- Refuses the beans of a type. -/
def rejecting (rejected : TypeName) : Injector where
  procedure b id type :=
    if type = rejected then .refuse (.notResolved ("rejected " ++ id))
    else standard.procedure b id type

/-- Gets all beans of a type ahead of each other bean. -/
def leading (leader : TypeName) : Injector where
  procedure b id type :=
    if type = leader then standard.procedure b id type
    else .getAll leader fun
      | .ok _ => standard.procedure b id type
      | .error cause => .refuse cause
  depth := 1

end Injector
end Inversion
