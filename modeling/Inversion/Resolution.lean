/-
# Resolving beans

To resolve a bean is to evaluate its conditions and, if they hold, to index it
under its type, its exports and its name; if they do not, the bean is deleted.
The conditions may look up other beans, and a lookup resolves its candidates
first, so resolutions stand inside one another. A bean that is being resolved is
passed over by every lookup.

Each nested resolution starts with a fresh bean and leaves it no longer fresh.
So `resolve` takes a bound on the number of fresh beans, and within that bound
the nesting ends by itself.
-/
import Inversion.Registry

namespace Inversion

/-- A computation on the progress of a refresh that may fail to resolve a bean. -/
abbrev Resolving (α : Type) : Type :=
  ExceptT ResolveError (StateM Progress) α

/-- A computation on the progress of a refresh that may fail with a condition. -/
abbrev Checking (α : Type) : Type :=
  ExceptT Fault (StateM Progress) α

/-! ### Conditions -/

/-- What a computation comes to, as a value. -/
def observe {ε σ α : Type} (x : ExceptT ε (StateM σ) α) : ExceptT ε (StateM σ) (Except ε α) := do
  let s ← get
  let (result, s) := (x.run).run s
  set s
  pure result

/-- Runs a probe, with `find` for its lookups. -/
def Probe.run (plan : Plan) (find : Selector → Checking (List Nat)) : Probe → Checking Bool
  | answer b => pure b
  | fail message => throw (.text message)
  | raise cause => throw cause
  | note entry next => do
    modify (·.note (.noted entry))
    next.run plan find
  | .find sel next => do
    let found ← find sel
    (next (found.map plan.idOf)).run plan find
  | attempt sel next => do
    let result ← observe (find sel)
    (next (result.map (·.map plan.idOf))).run plan find
  | properties next => (next plan.properties).run plan find
  | cancelled next => (next plan.cancelled).run plan find

/-- Whether a property that is there or missing is what a condition asks for. -/
def propertyHolds (actual expected : Option String) (ifMissing : Bool) : Bool :=
  match actual, expected with
  | none, _ => ifMissing
  | some _, none => true
  | some a, some e => a == e

mutual
/-- Evaluates a condition, with `find` for its lookups. -/
def Condition.holds (plan : Plan) (find : Selector → Checking (List Nat)) :
    Condition → Checking Bool
  | .property key value ifMissing => do
    modify (·.note (.test (.property key)))
    pure (propertyHolds (plan.properties.get? key) value ifMissing)
  | .missingProperty key => do
    modify (·.note (.test (.property key)))
    pure (!plan.properties.contains key)
  | .beans expectation sel => do
    modify (·.note (.test (.beans sel)))
    let found ← find sel
    pure (expectation.met found.length)
  | .not condition => do
    let b ← condition.holds plan find
    pure (!b)
  | .all conditions => allHold plan find conditions
  | .any conditions => anyHolds plan find conditions
  | .probe probe => do
    modify (·.note (.test .probe))
    probe.run plan find
  | .context message condition => (condition.holds plan find).adapt (Fault.context message)

/-- Evaluates conditions in turn up to the first one that does not hold. -/
def allHold (plan : Plan) (find : Selector → Checking (List Nat)) :
    List Condition → Checking Bool
  | [] => pure true
  | c :: cs => do
    if ← c.holds plan find then allHold plan find cs else pure false

/-- Evaluates conditions in turn up to the first one that holds. -/
def anyHolds (plan : Plan) (find : Selector → Checking (List Nat)) :
    List Condition → Checking Bool
  | [] => pure false
  | c :: cs => do
    if ← c.holds plan find then pure true else anyHolds plan find cs
end

namespace Plan

/-! ### Lookups that resolve -/

/-- The beans of a list that match, resolved in turn with `resolve`. Those that
are being resolved are passed over. -/
def scan (plan : Plan) (resolve : Nat → Resolving Unit) (sel : Selector) :
    List Nat → Resolving (List Nat)
  | [] => pure []
  | b :: bs => do
    if (← get).registry.status b = .resolving then
      modify (·.note (.skipped (plan.idOf b) sel))
      scan plan resolve sel bs
    else
      resolve b
      let r := (← get).registry
      let found ← scan plan resolve sel bs
      pure (if r.status b ≠ .deleted ∧ plan.selects r sel b then b :: found else found)

/-- The active beans that could match, as they are at the start of a lookup. -/
def candidates (plan : Plan) (r : Registry) (sel : Selector) : List Nat :=
  r.active.filter (plan.mayMatch sel)

def findWith (plan : Plan) (resolve : Nat → Resolving Unit) (sel : Selector) :
    Resolving (List Nat) := do
  let r := (← get).registry
  let found ← scan plan resolve sel (plan.candidates r sel)
  modify (·.note (.lookedUp sel r.resolving found))
  pure found

/-! ### Resolution -/

/-- The progress without a bean whose conditions do not hold. -/
def discard (plan : Plan) (b : Nat) (p : Progress) : Progress :=
  let id := plan.idOf b
  ({ p with registry := p.registry.removeId id }.setStatus b .deleted).note (.deleted id)

/-- Takes a bean out whose conditions do not hold. -/
def delete (plan : Plan) (b : Nat) : Resolving Unit :=
  modify (plan.discard b)

/-- The types that a bean is exported as: those that its composition offers and
those that were declared. -/
def exportsOf (plan : Plan) (bean : Bean) : Except ResolveError (List TypeName) := do
  let offered ←
    if bean.composite then
      match autoExport plan.compositions (plan.compositions.of bean.type) with
      | .ok offered => pure offered
      | .error cause => throw (.export bean.description cause)
    else pure []
  let exports := bean.exports.foldr insertType offered
  match exports.find? (!bean.implements ·) with
  | some interface => throw (.notImplemented bean.description interface)
  | none => pure exports

/-- Puts a type into a list in the order of types, repeated if it is there. -/
def insertRepeated (t : TypeName) : List TypeName → List TypeName
  | [] => [t]
  | u :: us => if t.le u then t :: u :: us else u :: insertRepeated t us

/-- Indexes a bean by its type and its exports, then by its name. -/
def index (b : Nat) (bean : Bean) (exports : List TypeName) (p : Progress) : Progress :=
  let p := (insertRepeated bean.type exports).foldl
    (fun p t =>
      { p with registry := p.registry.indexType t b }.note (.indexedByType bean.id t)) p
  match bean.name with
  | some name =>
    { p with registry := p.registry.indexName name b }.note (.indexedByName bean.id name)
  | none => p

/-- The progress with a bean indexed and resolved. -/
def settle (b : Nat) (bean : Bean) (exports : List TypeName) (p : Progress) : Progress :=
  let p := index b bean exports p
  { p with registry := p.registry.setExports b exports }.setStatus b .resolved

/-- Exports and indexes a bean whose conditions hold. -/
def accept (plan : Plan) (b : Nat) (bean : Bean) : Resolving Unit := do
  if bean.composite then modify (·.note (.walked b))
  let exports ← liftExcept (plan.exportsOf bean)
  modify (settle b bean exports)
where
  liftExcept (x : Except ResolveError (List TypeName)) : Resolving (List TypeName) :=
    match x with
    | .ok a => pure a
    | .error e => throw e

/-- Notes the failure of a bean's resolution. -/
def reported (b : Nat) (x : Resolving Unit) : Resolving Unit := do
  match ← observe x with
  | .ok () => pure ()
  | .error cause =>
    modify (·.note (.unresolved b cause))
    throw cause

/-- Decides whether a bean takes part, if that is not decided yet; `n` bounds the
number of fresh beans. -/
def resolve (plan : Plan) : Nat → Nat → Resolving Unit
  | 0, _ => pure ()
  | n + 1, b =>
    match plan.beans[b]? with
    | none => pure ()
    | some bean => do
      if (← get).registry.status b = .fresh then
        modify (·.setStatus b .resolving)
        let find (sel : Selector) : Checking (List Nat) :=
          (plan.findWith (resolve plan n) sel).adapt Fault.lookup
        reported b do
          let holds ← (allHold plan find bean.conditions).adapt (ResolveError.condition bean.id)
          if holds then plan.accept b bean else plan.delete b

def resolveBean (plan : Plan) (b : Nat) : Resolving Unit :=
  plan.resolve plan.beans.length b

/-- The active beans that match, found while the container is refreshed. -/
def find (plan : Plan) (sel : Selector) : Resolving (List Nat) :=
  plan.findWith plan.resolveBean sel

/-- Resolves all beans in the order of registration. -/
def resolveAll (plan : Plan) : Resolving Unit :=
  (List.range plan.beans.length).forM plan.resolveBean

/-! ### Configurations -/

/-- Whether a configuration takes part. -/
def admits (plan : Plan) (configuration : Configuration) (c : Nat) : Resolving Bool := do
  let find (sel : Selector) : Checking (List Nat) := (plan.find sel).adapt Fault.lookup
  let holds ←
    (allHold plan find configuration.conditions).adapt (ResolveError.condition configuration.title)
  if !holds then modify (·.note (.configurationSkipped c configuration.title))
  pure holds

/-- The configurations that take part, with their places. -/
def admitted (plan : Plan) :
    List (Configuration × Nat) → Resolving (List (Configuration × Nat))
  | [] => pure []
  | (configuration, c) :: rest => do
    let holds ← plan.admits configuration c
    let rest ← admitted plan rest
    pure (if holds then (configuration, c) :: rest else rest)

end Plan
end Inversion
