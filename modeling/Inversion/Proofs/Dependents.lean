/-
# The dependents of a bean

An edge `(x, y)` says that bean `y` received bean `x`. The dependents of a bean are
exactly the other beans that the edges lead to from it, over any number of beans
in between (`mem_dependents`). A pass over the edges that adds nothing leaves a
list closed under them, and every other pass adds the end of an edge, so that the
passes that are allowed for suffice.
-/
import Mathlib.Data.Finset.Card
import Mathlib.Data.Finset.Dedup
import Mathlib.Logic.Relation
import Inversion.Teardown

namespace Inversion

open Relation

variable {edges : List (Nat × Nat)}

/-- Bean `y` received bean `x`. -/
def Edge (edges : List (Nat × Nat)) (x y : Nat) : Prop :=
  (x, y) ∈ edges

/-- Adds the end of an edge whose start is there. -/
def follow (seen : List Nat) (e : Nat × Nat) : List Nat :=
  if e.1 ∈ seen ∧ e.2 ∉ seen then seen ++ [e.2] else seen

theorem widen_cons (e : Nat × Nat) (es : List (Nat × Nat)) (seen : List Nat) :
    widen (e :: es) seen = widen es (follow seen e) := rfl

theorem prefix_follow (seen : List Nat) (e : Nat × Nat) : seen <+: follow seen e := by
  unfold follow
  split
  · exact List.prefix_append _ _
  · exact List.prefix_refl _

theorem nodup_follow {seen : List Nat} (h : seen.Nodup) (e : Nat × Nat) : (follow seen e).Nodup := by
  unfold follow
  split
  · rename_i he
    rw [List.nodup_append]
    refine ⟨h, by simp, fun a ha b hb => ?_⟩
    rw [List.mem_singleton.mp hb]
    exact fun heq => he.2 (heq ▸ ha)
  · exact h

theorem prefix_widen : ∀ (es : List (Nat × Nat)) (seen : List Nat), seen <+: widen es seen
  | [], _ => List.prefix_refl _
  | e :: es, seen => (prefix_follow seen e).trans (prefix_widen es _)

theorem nodup_widen : ∀ (es : List (Nat × Nat)) {seen : List Nat}, seen.Nodup → (widen es seen).Nodup
  | [], _, h => h
  | e :: es, _, h => nodup_widen es (nodup_follow h e)

/-- A pass adds only what the edges lead to. -/
theorem mem_widen : ∀ {es : List (Nat × Nat)} {seen : List Nat} {y : Nat}, (∀ e ∈ es, e ∈ edges) →
    y ∈ widen es seen → ∃ x ∈ seen, ReflTransGen (Edge edges) x y
  | [], _, y, _, hy => ⟨y, hy, .refl⟩
  | e :: es, seen, y, hes, hy => by
    rw [widen_cons] at hy
    obtain ⟨x, hx, hxy⟩ := mem_widen (fun e' he' => hes e' (List.mem_cons_of_mem _ he')) hy
    unfold follow at hx
    split at hx
    · rename_i he
      rcases List.mem_append.mp hx with hx | hx
      · exact ⟨x, hx, hxy⟩
      · rw [List.mem_singleton.mp hx] at hxy
        exact ⟨e.1, he.1, .head (hes e List.mem_cons_self) hxy⟩
    · exact ⟨x, hx, hxy⟩

/-- After a pass that adds nothing, no edge leads out. -/
theorem closed_of_widen_length : ∀ {es : List (Nat × Nat)} {seen : List Nat},
    (widen es seen).length = seen.length → ∀ e ∈ es, e.1 ∈ seen → e.2 ∈ seen
  | [], _, _, e, he, _ => absurd he List.not_mem_nil
  | e :: es, seen, h, e', he', hin => by
    rw [widen_cons] at h
    have hf : follow seen e = seen := by
      have h1 := (prefix_follow seen e).length_le
      have h2 := (prefix_widen es (follow seen e)).length_le
      exact ((prefix_follow seen e).eq_of_length (by omega)).symm
    rw [hf] at h
    rcases List.mem_cons.mp he' with rfl | he'
    · by_contra hout
      unfold follow at hf
      rw [if_pos ⟨hin, hout⟩] at hf
      have := congrArg List.length hf
      simp at this
    · exact closed_of_widen_length h e' he' hin

theorem prefix_reach : ∀ (n : Nat) (seen : List Nat), seen <+: reach edges n seen
  | 0, _ => List.prefix_refl _
  | n + 1, seen => by
    simp only [reach]
    split
    · exact List.prefix_refl _
    · exact (prefix_widen edges seen).trans (prefix_reach n _)

theorem mem_reach : ∀ {n : Nat} {seen : List Nat} {y : Nat}, y ∈ reach edges n seen →
    ∃ x ∈ seen, ReflTransGen (Edge edges) x y
  | 0, _, y, hy => ⟨y, hy, .refl⟩
  | n + 1, seen, y, hy => by
    simp only [reach] at hy
    split at hy
    · exact ⟨y, hy, .refl⟩
    · obtain ⟨x, hx, hxy⟩ := mem_reach hy
      obtain ⟨w, hw, hwx⟩ := mem_widen (fun _ he => he) hx
      exact ⟨w, hw, hwx.trans hxy⟩

/-- With as many passes as there are ends of edges left, no edge leads out. -/
theorem closed_reach (b : Nat) : ∀ (n : Nat) (seen : List Nat), seen.Nodup →
    seen ⊆ b :: edges.map (·.2) → (b :: edges.map (·.2)).toFinset.card ≤ seen.length + n →
    ∀ e ∈ edges, e.1 ∈ reach edges n seen → e.2 ∈ reach edges n seen
  | 0, seen, hnd, hsub, hcard, e, he, _ => by
    -- every bean that can be seen has been seen
    have hss : seen.toFinset ⊆ (b :: edges.map (·.2)).toFinset := fun y hy =>
      List.mem_toFinset.mpr (hsub (List.mem_toFinset.mp hy))
    have heq := Finset.eq_of_subset_of_card_le hss (by
      rw [List.toFinset_card_of_nodup hnd]
      exact hcard)
    have hin : e.2 ∈ (b :: edges.map (·.2)).toFinset := by
      rw [List.mem_toFinset]
      exact List.mem_cons_of_mem _ (List.mem_map.mpr ⟨e, he, rfl⟩)
    rw [← heq, List.mem_toFinset] at hin
    exact hin
  | n + 1, seen, hnd, hsub, hcard, e, he, hin => by
    simp only [reach] at hin ⊢
    split at hin
    · rename_i hlen
      rw [if_pos hlen]
      exact closed_of_widen_length hlen e he hin
    · rename_i hlen
      rw [if_neg hlen]
      refine closed_reach b n _ (nodup_widen edges hnd) (fun y hy => ?_) ?_ e he hin
      · obtain ⟨x, hx, hxy⟩ := mem_widen (fun _ he => he) hy
        rcases hxy.cases_tail with rfl | ⟨z, -, hz⟩
        · exact hsub hx
        · exact List.mem_cons_of_mem _ (List.mem_map.mpr ⟨(z, y), hz, rfl⟩)
      · have := (prefix_widen edges seen).length_le
        omega

/-- What the edges lead to is reached. -/
theorem reach_complete {b y : Nat} (h : ReflTransGen (Edge edges) b y) :
    y ∈ reach edges edges.length [b] := by
  have hcard : (b :: edges.map (·.2)).toFinset.card ≤ [b].length + edges.length := by
    refine (List.toFinset_card_le _).trans ?_
    simp [Nat.add_comm]
  induction h with
  | refl => exact (prefix_reach _ _).subset (by simp)
  | tail _ hyz ih => exact closed_reach b _ [b] (by simp) (by simp) hcard _ hyz ih

theorem mem_dependents {b y : Nat} :
    y ∈ dependents edges b ↔ y ≠ b ∧ ReflTransGen (Edge edges) b y := by
  unfold dependents
  rw [List.mem_filter, decide_eq_true_eq, and_comm]
  refine and_congr_right fun _ => ⟨fun hy => ?_, reach_complete⟩
  obtain ⟨x, hx, hxy⟩ := mem_reach hy
  rwa [List.mem_singleton.mp hx] at hxy

end Inversion
