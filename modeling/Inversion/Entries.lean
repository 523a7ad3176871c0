/-
# Entries in the order of their keys

`insertEntry` puts an entry among entries whose keys ascend. It brings in no
other entry, and the keys still ascend.
-/
namespace Inversion

variable {α : Type}

/-- An entry list with `value` for `key`, put where the order of the keys asks
for it. -/
def insertEntry (key : String) (value : α) : List (String × α) → List (String × α)
  | [] => [(key, value)]
  | (k, v) :: es =>
    if key < k then (key, value) :: (k, v) :: es
    else if key = k then (key, value) :: es
    else (k, v) :: insertEntry key value es

theorem mem_insertEntry {key : String} {value : α} {e : String × α} :
    ∀ {es : List (String × α)}, e ∈ insertEntry key value es → e = (key, value) ∨ e ∈ es
  | [], h => by simpa [insertEntry] using h
  | (k, v) :: es, h => by
    unfold insertEntry at h
    split at h
    · simpa using h
    · split at h
      · rcases List.mem_cons.mp h with h | h
        · exact .inl h
        · exact .inr (List.mem_cons_of_mem _ h)
      · rcases List.mem_cons.mp h with h | h
        · exact .inr (h ▸ List.mem_cons_self)
        · rcases mem_insertEntry h with h | h
          · exact .inl h
          · exact .inr (List.mem_cons_of_mem _ h)

theorem pairwise_insertEntry {key : String} {value : α} :
    ∀ {es : List (String × α)}, es.Pairwise (·.1 < ·.1) →
      (insertEntry key value es).Pairwise (·.1 < ·.1)
  | [], _ => by simp [insertEntry]
  | (k, v) :: es, h => by
    obtain ⟨hk, hes⟩ := List.pairwise_cons.mp h
    unfold insertEntry
    split
    · rename_i hlt
      refine List.pairwise_cons.mpr ⟨fun e he => ?_, h⟩
      rcases List.mem_cons.mp he with he | he
      · exact he ▸ hlt
      · exact String.lt_trans hlt (hk e he)
    · split
      · rename_i heq
        exact List.pairwise_cons.mpr ⟨fun e he => heq ▸ hk e he, hes⟩
      · rename_i hlt hne
        refine List.pairwise_cons.mpr ⟨fun e he => ?_, pairwise_insertEntry hes⟩
        rcases mem_insertEntry he with he | he
        · subst he
          exact Decidable.byContradiction fun hgt =>
            hne (String.le_antisymm (String.not_lt.mp hgt) (String.not_lt.mp hlt))
        · exact hk e he

end Inversion
