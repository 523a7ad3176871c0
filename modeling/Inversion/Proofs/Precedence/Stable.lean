/-
# The order keeps to the list

When the first items of the list have been visited, these are done with what they need,
directly or through others, and nothing else is (`order_front`). So an item comes to stand
before an earlier one only if that one needs it, or one that is earlier still
(`order_stable`). Where every item stands behind those it runs after already, the list
stays as it is (`arrange_of_forward`), and the order itself is such a list.
-/
import Inversion.Proofs.Precedence

namespace Inversion
namespace Precedence

open Relation

section
variable {n : Nat} {after : Nat → Nat → Bool} {is : List Nat} {i j : Nat}

/-- A later item that stands before an earlier one is needed there. -/
theorem order_stable (h : order n after = .ok is) (hij : i < j) (hs : [j, i].Sublist is) :
    ∃ k ≤ i, TransGen (Needs n after) k j := by
  obtain ⟨-, hw⟩ := order_ok h
  have hi : i < n := hw.lt i (hs.subset (by simp))
  obtain ⟨front, ⟨rest, rfl⟩, hall, hfrom⟩ := order_front h (m := i + 1) hi
  have hfront : j ∈ front := by
    obtain ⟨l, r, rfl⟩ := List.append_of_mem (hall i (Nat.lt_succ_self i))
    rw [List.append_assoc, List.cons_append] at hw hs
    exact List.mem_append_left _ (mem_of_sublist_pair hw.nodup hs)
  obtain ⟨k, hk, hkj⟩ := hfrom j hfront
  refine ⟨k, Nat.le_of_lt_succ hk, ?_⟩
  rcases reflTransGen_iff_eq_or_transGen.mp hkj with rfl | hkj
  · omega
  · exact hkj

/-- Items that stand behind what they need already are not moved. -/
theorem order_of_forward (h : ∀ i j, Needs n after i j → j < i) : order n after = .ok (List.range n) := by
  have hlt : ∀ {k l}, TransGen (Needs n after) k l → l < k := by
    intro k l hkl
    induction hkl with
    | single hkl => exact h _ _ hkl
    | tail _ hlm ih => exact (h _ _ hlm).trans ih
  obtain ⟨is, his⟩ := order_ok_iff.mpr fun k hk => (hlt hk).false
  obtain ⟨hperm, hw⟩ := order_ok his
  have hsorted : is.Pairwise (· < ·) := by
    refine List.pairwise_iff_forall_sublist.mpr fun {a b} hab => ?_
    rcases Nat.lt_trichotomy a b with hlt' | rfl | hgt
    · exact hlt'
    · exact absurd hab (List.nodup_iff_sublist.mp hw.nodup a)
    · -- what forces the two out of their order is not forward
      obtain ⟨k, hk, hka⟩ := order_stable his hgt hab
      have := hlt hka
      omega
  rw [his, hperm.eq_of_pairwise (fun _ _ _ _ hab hba => absurd hab hba.asymm) hsorted
    List.pairwise_lt_range]

end

section
variable {α : Type} {key : α → String} {after : α → α → Bool} {items : List α}

theorem arrange_of_forward
    (h : ∀ i j, Needs items.length (placewise after items) i j → j < i) :
    arrange key after items = .ok items :=
  arrange_eq_ok.mpr ⟨_, places_eq_ok.mpr (order_of_forward h), filterMap_getElem?_range items⟩

/-- A list in order is arranged as it is. -/
theorem arrange_again {result : List α} (h : arrange key after items = .ok result) :
    arrange key after result = .ok result := by
  obtain ⟨is, -, hresult, -, hw⟩ := arrange_places h
  have hplace : ∀ {p : Nat} {a : α}, result[p]? = some a →
      ∃ i, is[p]? = some i ∧ items[i]? = some a := by
    intro p a hp
    have hmap := congrArg (·[p]?) hresult
    simp only [List.getElem?_map, hp] at hmap
    exact Option.map_eq_some_iff.mp hmap.symm
  refine arrange_of_forward fun p q hpq => ?_
  obtain ⟨hne, a, b, ha, hb, hab⟩ := needs_placewise.mp hpq
  obtain ⟨i, hi, hia⟩ := hplace ha
  obtain ⟨j, hj, hjb⟩ := hplace hb
  have hji : j ≠ i := by
    rintro rfl
    exact hne ((List.getElem?_inj (List.getElem?_eq_some_iff.mp hj).1 hw.nodup).mp (hj.trans hi.symm))
  exact hw.lt_of_needs hi hj (needs_placewise.mpr ⟨hji, a, b, hia, hjb, hab⟩)

/-- An item comes to stand before an earlier one only if that one runs after it, or one that
is earlier still, directly or through others. So a list in which every item stands behind
those it runs after is not changed, and nor is a list that has been put in order before. -/
theorem arrange_stable (key : α → String) (after : α → α → Bool) (items : List α) :
    (∀ result, arrange key after items = .ok result →
      (∃ is, places key after items = .ok is ∧ result.map some = is.map (items[·]?) ∧
        ∀ i j, i < j → [j, i].Sublist is →
          ∃ k ≤ i, TransGen (Needs items.length (placewise after items)) k j) ∧
      arrange key after result = .ok result) ∧
    ((∀ i j, Needs items.length (placewise after items) i j → j < i) →
      arrange key after items = .ok items) := by
  refine ⟨fun result h => ⟨?_, arrange_again h⟩, arrange_of_forward⟩
  obtain ⟨is, his, hresult, -, -⟩ := arrange_places h
  exact ⟨is, his, hresult, fun i j => order_stable (places_eq_ok.mp his)⟩

/-- The first errand waits for the last, and that one for the second. -/
def morning : List Errand :=
  [⟨"eat", 0, ["cook"], []⟩, ⟨"shop", 1, [], []⟩, ⟨"cook", 2, ["shop"], []⟩]

def tidyMorning : List Errand :=
  [⟨"shop", 1, [], []⟩, ⟨"cook", 2, ["shop"], []⟩, ⟨"eat", 0, ["cook"], []⟩]

theorem arrange_stable_of_morning :
    arrange Errand.key Errand.runsAfter morning = .ok tidyMorning ∧
      (∃ is, Errand.sort morning = .ok is ∧ [1, 0].Sublist is ∧
        ∃ k ≤ 0, TransGen (Needs morning.length (placewise Errand.runsAfter morning)) k 1) ∧
      (∀ i j, Needs tidyMorning.length (placewise Errand.runsAfter tidyMorning) i j → j < i) ∧
      arrange Errand.key Errand.runsAfter tidyMorning = .ok tidyMorning := by
  have harranged : arrange Errand.key Errand.runsAfter morning = .ok tidyMorning := by decide
  have hsort : Errand.sort morning = .ok [1, 2, 0] := by decide
  obtain ⟨⟨is, his, -, hstable⟩, -⟩ :=
    (arrange_stable Errand.key Errand.runsAfter morning).1 _ harranged
  have hbefore : [1, 0].Sublist is := by
    rw [Except.ok.inj (his.symm.trans hsort)]
    decide
  have hforward : ∀ i j,
      Needs tidyMorning.length (placewise Errand.runsAfter tidyMorning) i j → j < i := by
    have : ∀ i < 3, ∀ j < 3, placewise Errand.runsAfter tidyMorning i j = true → j < i := by decide
    exact fun i j ⟨hi, hj, _, hij⟩ => this i hi j hj hij
  exact ⟨harranged, ⟨is, his, hbefore, hstable 0 1 (by decide) hbefore⟩, hforward,
    (arrange_stable Errand.key Errand.runsAfter tidyMorning).2 hforward⟩

end

end Precedence
end Inversion
