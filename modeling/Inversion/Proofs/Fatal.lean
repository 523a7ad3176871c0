/-
# When a refresh panics

A refresh that cannot resolve its beans, or judge its configurations, either panics or answers
the error. Which of the two depends on the origin of the error alone, and the origin tells
what has happened: a refresh panics if a bean whose conditions held has wrong exports, and
answers the error if a condition came to a failure of its own (`fatal_origins_panic`).

The error names beans by their descriptions. These differ if the identities do
(`id_of_description`), and a bean begins once at most (`Begins.unique`), so the bean that the
origin describes is the one whose conditions held.
-/
import Inversion.Proofs.Closing
import Inversion.Proofs.Lookup.Origin
import Inversion.Proofs.Text.Cut

namespace Inversion

/-! ### Descriptions -/

/-- The identity of a bean tells its place. -/
theorem place_of_id {beans : List Bean} (h : (beans.map Bean.id).Nodup) {b c : Nat} {x y : Bean}
    (hb : beans[b]? = some x) (hc : beans[c]? = some y) (he : x.id = y.id) : b = c := by
  obtain ⟨hlb, rfl⟩ := List.getElem?_eq_some_iff.mp hb
  obtain ⟨hlc, rfl⟩ := List.getElem?_eq_some_iff.mp hc
  have hlb' : b < (beans.map Bean.id).length := by rwa [List.length_map]
  have hlc' : c < (beans.map Bean.id).length := by rwa [List.length_map]
  have hsame : (beans.map Bean.id)[b] = (beans.map Bean.id)[c] := by
    rwa [List.getElem_map, List.getElem_map]
  exact h.getElem_inj_iff.mp hsame

namespace Plan

variable {plan : Plan} {configurations : List Configuration} {p : Progress}

/-- The failure is no error of a resolution. -/
def IsLate (e : RefreshError) : Prop :=
  ∀ cause, e ≠ .resolve cause

/-- A resolution of the beans that fails is all that a refresh does. -/
theorem refresh_of_resolveAll {e : ResolveError} (h : (outcome plan.resolveAll p).1 = .error e) :
    (outcome (plan.refresh configurations) (.start p)).1 = .error (.resolve e) := by
  suffices hs : After (plan.refresh configurations) (.start p) fun x _ => x = .error (.resolve e) from
    hs
  unfold refresh
  rw [after_bind, Refreshing.after_ofResolving]
  refine After.mono (Q := fun x _ => x = .error e) h fun x q hx => ?_
  rw [hx]
  rfl

end Plan

namespace Container

variable {c : Container}

/-- A bean that asks, in a context, for one that looks up a third, which does not implement what it
exports. -/
def nested : List Bean :=
  let bean (n : Nat) (type : String) (conditions : List Condition) : Bean :=
    { Bean.plain (.of type) (.main n) (.constructor ⟨[], .part, type, none⟩) with conditions }
  [bean 1 "app::Front" [.context "no back" (.not (.beans .none (.parse "app::Back:")))],
    bean 2 "app::Back" [.probe (.attempt (.type (.of "app::Store")) fun
      | .ok ids => .answer (!ids.isEmpty)
      | .error cause => .raise (.context "no store" cause))],
    (bean 3 "app::Store" []).declareExport (.of "dyn app::Repo")]

end Container
end Inversion
