/-
# Tearing beans down

When a container closes, the destroyers of its beans run. A destroyer runs
after those of all beans that depend on its bean, directly or through other
beans, whether these have a destroyer or not. Otherwise the destroyers keep the
order in which their beans were wired.
-/
import Inversion.Wiring

namespace Inversion

/-- Adds the beans that received one of `seen`, in a single pass over the
dependencies. -/
def widen (edges : List (Nat × Nat)) (seen : List Nat) : List Nat :=
  edges.foldl (fun seen e => if e.1 ∈ seen ∧ e.2 ∉ seen then seen ++ [e.2] else seen) seen

/-- Widens `seen` until a pass adds nothing, in at most `n` passes. -/
def reach (edges : List (Nat × Nat)) : Nat → List Nat → List Nat
  | 0, seen => seen
  | n + 1, seen =>
    let wider := widen edges seen
    if wider.length = seen.length then seen else reach edges n wider

/-- The beans that depend on `b`. A pass that adds a bean adds the end of an edge,
so there are no more such passes than edges. -/
def dependents (edges : List (Nat × Nat)) (b : Nat) : List Nat :=
  (reach edges edges.length [b]).filter (· ≠ b)

/-- The beans whose destroyers are kept, in the order in which these run. -/
def Assembly.teardownOrder (plan : Plan) (a : Assembly) : Except SortError (List Nat) :=
  let destroyers := a.destroyers.map fun b => (b, dependents a.edges b)
  (Precedence.arrange (fun d => plan.idOf d.1) (fun d e => d.2.contains e.1) destroyers).map
    (·.map (·.1))

namespace Plan

/-- Runs the destroyer of a bean. Its failure is reported and stops nothing. -/
def tearDown (plan : Plan) (p : Progress) (b : Nat) : Progress :=
  match plan.beans[b]? with
  | none => p
  | some bean =>
    match bean.destroy, p.registry.held b with
    | some hook, some i =>
      let p := p.note (.teardown b bean.type i.briefText)
      match hook.failure with
      | none => p.note (.destroyed bean.id)
      | some cause => p.note (.destroyFailed bean.id cause)
    | _, _ => p.note (.destroyed bean.id)

end Plan
end Inversion
