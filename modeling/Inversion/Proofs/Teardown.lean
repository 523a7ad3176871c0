/-
# The order of the destroyers

After an orderly wiring the destroyers can always be put into order, since the
edges run along the order of wiring and so have no cycle. In that order each
destroyer stands behind those of all beans that depend on its bean, over whatever
beans in between (`Ordered.teardownOrder`).
-/
import Inversion.Proofs.Dependents
import Inversion.Proofs.Precedence
import Inversion.Proofs.Wiring.Order

namespace Inversion

open Relation

variable {plan : Plan} {a : Assembly}

theorem Ordered.acyclic (h : Ordered plan ([], a)) (x : Nat) : ¬ TransGen (Edge a.edges) x x :=
  fun hx => List.nodup_iff_sublist.mp h.nodup x (h.sublist rfl hx)

theorem mem_dependents_of_transGen (h : Ordered plan ([], a)) {x y : Nat} :
    y ∈ dependents a.edges x ↔ TransGen (Edge a.edges) x y := by
  rw [mem_dependents]
  constructor
  · rintro ⟨hne, hxy⟩
    rcases ReflTransGen.cases_head hxy with rfl | ⟨z, hxz, hzy⟩
    · exact absurd rfl hne
    · exact TransGen.head' hxz hzy
  · refine fun hxy => ⟨?_, hxy.to_reflTransGen⟩
    rintro rfl
    exact h.acyclic _ hxy

/-- The destroyers have an order, in which each stands behind those of the dependents
of its bean. -/
theorem Ordered.teardownOrder (h : Ordered plan ([], a)) :
    ∃ ds, a.teardownOrder plan = .ok ds ∧ ds.Perm a.destroyers ∧
      ∀ x ∈ a.destroyers, ∀ y ∈ a.destroyers, TransGen (Edge a.edges) x y → [y, x].Sublist ds := by
  have hplace : ∀ {i : Nat} {d : Nat × List Nat},
      (a.destroyers.map fun b => (b, dependents a.edges b))[i]? = some d →
        a.destroyers[i]? = some d.1 ∧ d.2 = dependents a.edges d.1 := by
    intro i d hd
    rw [List.getElem?_map, Option.map_eq_some_iff] at hd
    obtain ⟨b, hb, rfl⟩ := hd
    exact ⟨hb, rfl⟩
  unfold Assembly.teardownOrder
  cases harrange : Precedence.arrange (fun d => plan.idOf d.1)
      (fun (d e : Nat × List Nat) => d.2.contains e.1)
      (a.destroyers.map fun b => (b, dependents a.edges b)) with
  | error cause =>
    -- a cycle of needs would be a cycle of edges
    obtain ⟨k, hk⟩ := Precedence.arrange_error harrange
    have hcycle := TransGen.lift' (p := Edge a.edges) (fun i : Nat => a.destroyers[i]?.getD 0)
      (fun i j hij => by
        obtain ⟨-, d, e, hd, he, hde⟩ := Precedence.needs_placewise.mp hij
        obtain ⟨hdb, hd2⟩ := hplace hd
        obtain ⟨heb, -⟩ := hplace he
        show TransGen (Edge a.edges) (a.destroyers[i]?.getD 0) (a.destroyers[j]?.getD 0)
        rw [hdb, heb]
        rw [hd2, List.contains_iff_mem] at hde
        exact (mem_dependents_of_transGen h).mp hde) k k hk
    exact absurd hcycle (h.acyclic _)
  | ok result =>
    obtain ⟨hperm, hbehind⟩ := Precedence.arrange_ok harrange
    refine ⟨result.map (·.1), by simp only [harrange]; rfl, ?_, fun x hx y hy hxy => ?_⟩
    · have := hperm.map Prod.fst
      rwa [List.map_map, show Prod.fst ∘ (fun b => (b, dependents a.edges b)) = id from rfl,
        List.map_id] at this
    · obtain ⟨i, hi⟩ := List.mem_iff_getElem?.mp hx
      obtain ⟨j, hj⟩ := List.mem_iff_getElem?.mp hy
      have hne : j ≠ i := by
        rintro rfl
        rw [hi] at hj
        cases hj
        exact h.acyclic _ hxy
      have hsub := hbehind i j (x, dependents a.edges x) (y, dependents a.edges y)
        (by rw [List.getElem?_map, hi]; rfl) (by rw [List.getElem?_map, hj]; rfl) hne
        (List.contains_iff_mem.mpr ((mem_dependents_of_transGen h).mpr hxy))
      exact hsub.map Prod.fst

end Inversion
