/-
# To stand before another

`[x, y].Sublist l` says that `x` stands before `y` in the list `l`. In a list without
repetition this is a strict order, so a relation along which such a list goes has no cycle
(`acyclic_of_sublist`).
-/
import Mathlib.Data.List.Nodup
import Mathlib.Logic.Relation

namespace Inversion

open Relation

/-- To stand before another in a list without repetition is transitive. -/
theorem sublist_pair_trans {x y z : Nat} : ∀ {l : List Nat}, l.Nodup → [z, y].Sublist l →
    [y, x].Sublist l → [z, x].Sublist l
  | [], _, h, _ => by cases h
  | w :: l, hn, hzy, hyx => by
    obtain ⟨hw, hn⟩ := List.nodup_cons.mp hn
    have hyx' : y ∈ l → [y, x].Sublist l := by
      intro hy
      cases hyx with
      | cons _ h => exact h
      | cons_cons _ _ => exact absurd hy hw
    cases hzy with
    | cons _ h => exact (sublist_pair_trans hn h (hyx' (h.subset (by simp)))).cons w
    | cons_cons _ h =>
      have hx : x ∈ l := (hyx' (List.singleton_sublist.mp h)).subset (by simp)
      exact (List.singleton_sublist.mpr hx).cons_cons z

/-- What stands before an element stands in front of its place. -/
theorem mem_of_sublist_pair {x y : Nat} : ∀ {l m : List Nat}, (l ++ y :: m).Nodup →
    [x, y].Sublist (l ++ y :: m) → x ∈ l
  | [], m, hn, h => by
    obtain ⟨hy, -⟩ := List.nodup_cons.mp hn
    cases h with
    | cons _ h => exact absurd (h.subset (by simp)) hy
    | cons_cons _ h => exact absurd (List.singleton_sublist.mp h) hy
  | w :: l, m, hn, h => by
    cases h with
    | cons _ h =>
      exact List.mem_cons_of_mem w (mem_of_sublist_pair (List.nodup_cons.mp hn).2 h)
    | cons_cons _ _ => exact List.mem_cons_self

/-- A list that goes along a relation goes along its paths. -/
theorem sublist_of_transGen {R : Nat → Nat → Prop} {l : List Nat} (hn : l.Nodup)
    (h : ∀ x y, R x y → [y, x].Sublist l) {x y : Nat} (hxy : TransGen R x y) :
    [y, x].Sublist l := by
  induction hxy with
  | single hxy => exact h _ _ hxy
  | tail _ hyz ih => exact sublist_pair_trans hn (h _ _ hyz) ih

/-- So it has no cycle. -/
theorem acyclic_of_sublist {R : Nat → Nat → Prop} {l : List Nat} (hn : l.Nodup)
    (h : ∀ x y, R x y → [y, x].Sublist l) (x : Nat) : ¬ TransGen R x x :=
  fun hx => List.nodup_iff_sublist.mp hn x (sublist_of_transGen hn h hx)

end Inversion
