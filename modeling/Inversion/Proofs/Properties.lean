/-
# What a store holds

A store is known by what it gives to keys (`ext_get?`). A property that is set is found under
its key and nowhere else (`get?_insert`), so entries that are set one after the other are
found under their keys where none of the others has another text for the same key
(`get?_insertAll_of_unique`), and keys that none of them has keep what they had
(`get?_insertAll_of_not_mem`). Entries with distinct keys may be set in any order
(`insertAll_of_perm`).
-/
import Inversion.Properties
import Mathlib.Data.List.Nodup
import Mathlib.Data.List.Perm.Basic

namespace Inversion

/-! ### Lists of entries -/

section
variable {α : Type} {es : List (String × α)} {k : String} {v : α}

/-- Where no key stands twice, an entry is found under its key. -/
theorem lookup_eq_some_iff_mem (h : (es.map (·.1)).Nodup) : es.lookup k = some v ↔ (k, v) ∈ es := by
  constructor
  · intro hk
    obtain ⟨before, after, rfl, -⟩ := List.lookup_eq_some_iff.mp hk
    simp
  · intro hin
    obtain ⟨before, after, rfl⟩ := List.append_of_mem hin
    refine List.lookup_eq_some_iff.mpr ⟨before, after, rfl, fun e he => ?_⟩
    have hne : k ≠ e.1 := by
      rintro rfl
      rw [List.map_append, List.map_cons] at h
      exact (List.nodup_append.mp h).2.2 e.1 (List.mem_map_of_mem he) e.1 List.mem_cons_self rfl
    simpa using hne

theorem lookup_cons_ite (l : String) (w : α) :
    ((l, w) :: es).lookup k = if k = l then some w else es.lookup k := by
  rw [List.lookup_cons]
  by_cases hk : k = l
  · rw [hk, beq_self_eq_true, if_pos rfl]
  · rw [beq_eq_false_iff_ne.mpr hk, if_neg hk]

theorem lookup_insertEntry (key : String) (value : α) (k : String) : ∀ es : List (String × α),
    (insertEntry key value es).lookup k = if k = key then some value else es.lookup k
  | [] => by rw [insertEntry, lookup_cons_ite]
  | (l, w) :: es => by
    have ih := lookup_insertEntry key value k es
    unfold insertEntry
    by_cases hlt : key < l
    · rw [if_pos hlt, lookup_cons_ite]
    · by_cases hl : key = l
      · rw [if_neg hlt, if_pos hl, lookup_cons_ite, lookup_cons_ite, hl]
        split <;> rfl
      · rw [if_neg hlt, if_neg hl, lookup_cons_ite, lookup_cons_ite, ih]
        by_cases hk : k = key
        · rw [hk, if_neg hl, if_pos rfl, if_pos rfl]
        · rw [if_neg hk, if_neg hk]

end

namespace Properties

variable {p q : Properties} {es fs : List (String × String)} {k v : String}

/-! ### Stores -/

theorem nodup_keys (p : Properties) : p.keys.Nodup := by
  have hlt : p.keys.Pairwise (· < ·) := List.pairwise_map.mpr p.ascending
  exact List.nodup_iff_pairwise_ne.mpr (hlt.imp fun hab => String.ne_of_lt hab)

theorem get?_eq_some_iff : p.get? k = some v ↔ (k, v) ∈ p.entries :=
  lookup_eq_some_iff_mem p.nodup_keys

/-- Stores that give the same to every key are equal. -/
theorem ext_get? (h : ∀ k, p.get? k = q.get? k) : p = q := by
  have hmem : ∀ e, e ∈ p.entries ↔ e ∈ q.entries := by
    intro e
    rw [← get?_eq_some_iff, ← get?_eq_some_iff, h]
  have hnodup : ∀ p : Properties, p.entries.Nodup := fun p => p.nodup_keys.of_map _
  have hperm : p.entries.Perm q.entries :=
    (List.perm_ext_iff_of_nodup (hnodup p) (hnodup q)).mpr hmem
  have hentries : p.entries = q.entries :=
    hperm.eq_of_pairwise (fun _ _ _ _ hab hba => absurd hab (String.lt_asymm hba)) p.ascending q.ascending
  cases p
  cases q
  cases hentries
  rfl

/-! ### Setting entries -/

theorem get?_empty (k : String) : empty.get? k = none := rfl

theorem get?_insert (p : Properties) (key value k : String) :
    (p.insert key value).get? k = if k = key then some value else p.get? k :=
  lookup_insertEntry key value k p.entries

theorem insertAll_cons (p : Properties) (e : String × String) (es : List (String × String)) :
    p.insertAll (e :: es) = (p.insert e.1 e.2).insertAll es := rfl

theorem get?_insertAll_of_not_mem (h : ∀ v, (k, v) ∉ es) : (p.insertAll es).get? k = p.get? k := by
  induction es generalizing p with
  | nil => rfl
  | cons e es ih =>
    have hne : k ≠ e.1 := by
      rintro rfl
      exact h e.2 List.mem_cons_self
    rw [insertAll_cons, ih fun v hv => h v (List.mem_cons_of_mem e hv), get?_insert, if_neg hne]

/-- The last entry of a key counts, and so does any other with the same text. -/
theorem get?_insertAll_of_unique (hin : (k, v) ∈ es) (h : ∀ w, (k, w) ∈ es → w = v) :
    (p.insertAll es).get? k = some v := by
  induction es generalizing p with
  | nil => cases hin
  | cons e es ih =>
    rw [insertAll_cons]
    by_cases hlater : (k, v) ∈ es
    · exact ih hlater fun w hw => h w (List.mem_cons_of_mem e hw)
    · obtain rfl : (k, v) = e := (List.mem_cons.mp hin).resolve_right hlater
      have hnone : ∀ w, (k, w) ∉ es := by
        intro w hw
        obtain rfl : w = v := h w (List.mem_cons_of_mem _ hw)
        exact hlater hw
      rw [get?_insertAll_of_not_mem hnone, get?_insert, if_pos rfl]

/-- The entries of a store, set in any order, make the store. -/
theorem insertAll_of_perm (h : es.Perm p.entries) : empty.insertAll es = p := by
  refine ext_get? fun k => ?_
  cases hk : p.get? k with
  | none =>
    rw [get?_insertAll_of_not_mem fun v hv => ?_, get?_empty]
    rw [get?_eq_some_iff.mpr (h.mem_iff.mp hv)] at hk
    cases hk
  | some v =>
    refine get?_insertAll_of_unique (h.mem_iff.mpr (get?_eq_some_iff.mp hk)) fun w hw => ?_
    have hw' : p.get? k = some w := get?_eq_some_iff.mpr (h.mem_iff.mp hw)
    exact Option.some.inj (hw'.symm.trans hk)

end Properties
end Inversion
