/-
# Refreshing

A refresh resolves all beans, runs the configurations that take part in the order
of their precedence, wires every active bean in the order of registration, and
puts the destroyers into order. The first failure ends it, and what happened
before stays.
-/
import Inversion.Teardown

namespace Inversion

abbrev Refreshing (α : Type) : Type :=
  ExceptT RefreshError (StateM Assembly) α

namespace Refreshing

def ofResolving {α : Type} (x : Resolving α) : Refreshing α := do
  let a ← get
  let (result, p) := (x.run).run a.progress
  set { a with progress := p }
  match result with
  | .ok v => pure v
  | .error e => throw (.resolve e)

def ofSorted {α : Type} (x : Except SortError α) : Refreshing α :=
  match x with
  | .ok v => pure v
  | .error e => throw (.sort e)

end Refreshing

namespace Plan

/-- Wires a bean from outside of any constructor. -/
def wireActive (plan : Plan) (b : Nat) : Refreshing Unit := do
  let a ← get
  let (result, a) := ((plan.wireBean b).run).run a
  set a
  match result with
  | .ok () => pure ()
  | .error cause =>
    let path := pathText (a.path plan)
    modify (·.note (.wiringInterrupted path))
    throw (.wire path cause)

/-- The whole refresh, with the beans whose destroyers are to run for its
result. -/
def refresh (plan : Plan) (configurations : List Configuration) : Refreshing (List Nat) := do
  Refreshing.ofResolving plan.resolveAll
  modify (·.note .beansResolved)
  let admitted ← Refreshing.ofResolving (plan.admitted configurations.zipIdx)
  let sorted ←
    Refreshing.ofSorted
      (Precedence.arrange (fun c => c.1.title) (fun c d => c.1.runsAfter d.1) admitted)
  sorted.forM fun (configuration, c) => plan.configure configuration c
  modify (·.note .configurationsApplied)
  (← get).progress.registry.active.forM plan.wireActive
  modify (·.note .beansWired)
  Refreshing.ofSorted ((← get).teardownOrder plan)

end Plan
end Inversion
