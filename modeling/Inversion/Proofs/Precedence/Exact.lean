/-
# An order or a circuit

There are never more items under visit than items, so the search does not come to the end
of its depth, and what would happen there does not matter (`orderBeyond_eq_order`). It
finds an order if and only if no item runs after itself, directly or through others, and
then every item is there once, behind those that it runs after (`arrange_exact`).
Otherwise it fails with the keys along a circuit of different items, each of which runs
after the next, and with no others: the visits that led into the circuit are left out
(`arrange_circuit`).
-/
import Inversion.Proofs.Outcome
import Inversion.Proofs.Precedence

namespace Inversion
namespace Precedence

open Relation

/-! ### The bound of the depth -/

section
variable {n : Nat} {after : Nat → Nat → Bool}

/-- `visit`, with `beyond` where the depth is used up. -/
def visitBeyond (beyond : List Nat → Nat → List Nat → Except (List Nat) (List Nat)) (n : Nat)
    (after : Nat → Nat → Bool) : Nat → List Nat → Nat → List Nat → Except (List Nat) (List Nat)
  | 0, path, i, done => beyond path i done
  | depth + 1, path, i, done =>
    if i ∈ done then .ok done
    else if i ∈ path then .error (closeCycle path i)
    else
      ((needs n after i).foldlM
        (fun done j => visitBeyond beyond n after depth (path ++ [i]) j done) done).map (· ++ [i])

/-- `order`, with `beyond` where the depth is used up. -/
def orderBeyond (beyond : List Nat → Nat → List Nat → Except (List Nat) (List Nat)) (n : Nat)
    (after : Nat → Nat → Bool) : Except (List Nat) (List Nat) :=
  (List.range n).foldlM (fun done i => visitBeyond beyond n after (n + 1) [] i done) []

variable (beyond : List Nat → Nat → List Nat → Except (List Nat) (List Nat))

/-- What stands where the depth is used up is never called. -/
theorem visitBeyond_eq_visit : ∀ {depth : Nat} {path : List Nat} {i : Nat},
    path.length + depth = n + 1 → Trail n after path → Meets n after path i → ∀ done,
      visitBeyond beyond n after depth path i done = visit n after depth path i done
  | 0, path, i, hlen, h, _, done => by
    have := h.length_le
    omega
  | depth + 1, path, i, hlen, h, hi, done => by
    rw [visitBeyond, visit]
    split
    · rfl
    · split
      · rfl
      · rename_i hpath
        refine congrArg (Except.map (· ++ [i])) (foldlM_congr (fun j hj done' => ?_) done)
        have hij : Needs n after i j := (mem_needs hi.1).mp hj
        refine visitBeyond_eq_visit ?_ (h.push hi hpath) (meets_of_needs hij) done'
        rw [List.length_append, List.length_singleton]
        omega

theorem orderBeyond_eq_order (n : Nat) (after : Nat → Nat → Bool) :
    orderBeyond beyond n after = order n after :=
  foldlM_congr (fun _ hi done => visitBeyond_eq_visit beyond (by simp) .empty
    (meets_nil (List.mem_range.mp hi)) done) []

end

/-! ### Items -/

section
variable {α : Type} {key : α → String} {after : α → α → Bool} {items : List α}

/-- The search always comes to its end. It finds an order if and only if no item runs after
itself, directly or through others. Then every place of the list is in the order once, and
each behind those of the items that its own runs after. -/
theorem arrange_exact (key : α → String) (after : α → α → Bool) (items : List α) :
    (∀ beyond, orderBeyond beyond items.length (placewise after items) =
      order items.length (placewise after items)) ∧
    ((∃ result, arrange key after items = .ok result) ↔
      ∀ i, ¬ TransGen (Needs items.length (placewise after items)) i i) ∧
    ∀ result, arrange key after items = .ok result →
      ∃ is, places key after items = .ok is ∧ result.map some = is.map (items[·]?) ∧
        is.Perm (List.range items.length) ∧
        ∀ i j, Needs items.length (placewise after items) i j → [j, i].Sublist is := by
  refine ⟨fun beyond => orderBeyond_eq_order beyond _ _, ?_, fun result h => ?_⟩
  · rw [← order_ok_iff]
    constructor
    · rintro ⟨result, h⟩
      obtain ⟨is, his, -⟩ := arrange_eq_ok.mp h
      exact ⟨is, places_eq_ok.mp his⟩
    · rintro ⟨is, h⟩
      exact ⟨_, arrange_eq_ok.mpr ⟨is, places_eq_ok.mpr h, rfl⟩⟩
  · obtain ⟨is, his, hresult, hperm, hw⟩ := arrange_places h
    refine ⟨is, his, hresult, hperm, fun i j hij => ?_⟩
    exact hw.sublist (hperm.mem_iff.mpr (List.mem_range.mpr hij.1)) hij

/-- Two errands of one name, which the first waits for. -/
def errands : List Errand :=
  [⟨"serve", 0, ["shop"], []⟩, ⟨"shop", 1, [], [2]⟩, ⟨"shop", 2, [], [2]⟩]

theorem arrange_exact_of_errands :
    (∀ i, ¬ TransGen (Needs errands.length (placewise Errand.runsAfter errands)) i i) ∧
      ∃ is, Errand.sort errands = .ok is ∧ is.Perm [0, 1, 2] ∧ [2, 1].Sublist is ∧
        [1, 0].Sublist is := by
  obtain ⟨-, hiff, hok⟩ := arrange_exact Errand.key Errand.runsAfter errands
  have harranged : arrange Errand.key Errand.runsAfter errands =
      .ok [⟨"shop", 2, [], [2]⟩, ⟨"shop", 1, [], [2]⟩, ⟨"serve", 0, ["shop"], []⟩] := by decide
  obtain ⟨is, his, -, hperm, hbehind⟩ := hok _ harranged
  exact ⟨hiff.mp ⟨_, harranged⟩, is, his, hperm, hbehind 1 2 (by unfold Needs; decide),
    hbehind 0 1 (by unfold Needs; decide)⟩

/-- Where there is no order, the error has the keys along a circuit of different items, two
at least, each of which runs after the next, and the last after the first, whose key is
there at both ends. -/
theorem arrange_circuit {e : SortError} (h : arrange key after items = .error e) :
    ∃ p ps, ps ≠ [] ∧ (p :: ps).Nodup ∧
      (p :: ps ++ [p]).IsChain (Needs items.length (placewise after items)) ∧
      e.chain.map some = (p :: ps ++ [p]).map fun i => items[i]?.map key := by
  obtain ⟨c, hc, rfl⟩ := arrange_eq_error.mp h
  obtain ⟨p, ps, rfl, hcircuit⟩ := order_circuit hc
  refine ⟨p, ps, hcircuit.others, hcircuit.nodup, hcircuit.chain, map_some_filterMap fun i hi => ?_⟩
  have hlt : i < items.length := hcircuit.lt i (by simpa [or_comm] using hi)
  simpa using hlt

/-- The first errand leads into the circuit of the others, two of which have the name that
it waits for. -/
def roundabout : List Errand :=
  [⟨"start", 0, ["turn"], []⟩, ⟨"turn", 1, [], [3]⟩, ⟨"turn", 2, [], [1]⟩, ⟨"yield", 3, [], [2]⟩]

theorem arrange_circuit_of_roundabout :
    arrange Errand.key Errand.runsAfter roundabout = .error ⟨["turn", "yield", "turn", "turn"]⟩ ∧
      ∃ p ps, ps ≠ [] ∧ (p :: ps).Nodup ∧
        (p :: ps ++ [p]).IsChain (Needs roundabout.length (placewise Errand.runsAfter roundabout)) ∧
        ["turn", "yield", "turn", "turn"].map some =
          (p :: ps ++ [p]).map fun i => roundabout[i]?.map Errand.key := by
  have harranged : arrange Errand.key Errand.runsAfter roundabout =
      .error ⟨["turn", "yield", "turn", "turn"]⟩ := by decide
  exact ⟨harranged, arrange_circuit harranged⟩

end

end Precedence
end Inversion
