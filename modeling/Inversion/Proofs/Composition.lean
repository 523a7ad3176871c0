/-
# Exports in order

A type is put into a list of exports where the order of the types asks for it, and
not a second time. So what a composition offers stands in the order of the types,
without repetition (`autoExport_ascending`), and so does what is exported in the end
(`exportsOf_ascending`), whatever was declared.
-/
import Inversion.Resolution

namespace Inversion

namespace TypeName.Precedes

variable {t u v : TypeName}

theorem irrefl (h : t.Precedes t) : False :=
  h.elim (String.lt_irrefl t.name) fun h => Nat.lt_irrefl t.number h.2

theorem trans (h : t.Precedes u) (h' : u.Precedes v) : t.Precedes v := by
  rcases h with h | ⟨hname, hnumber⟩
  · rcases h' with h' | ⟨hname', -⟩
    · exact .inl (String.lt_trans h h')
    · exact .inl (hname' ▸ h)
  · rcases h' with h' | ⟨hname', hnumber'⟩
    · exact .inl (hname ▸ h')
    · exact .inr ⟨hname.trans hname', Nat.lt_trans hnumber hnumber'⟩

theorem of_le_of_ne (h : t.le u) (hne : t ≠ u) : t.Precedes u :=
  (of_decide_eq_true h).resolve_left hne

theorem of_not_le (h : ¬ t.le u) : u.Precedes t := by
  obtain ⟨hne, hbefore⟩ := not_or.mp fun hor => h (decide_eq_true hor)
  obtain ⟨hname, hnumber⟩ := not_or.mp hbefore
  rcases Decidable.em (u.name < t.name) with hlt | hnot
  · exact .inl hlt
  · have hsame : u.name = t.name := String.le_antisymm (String.not_lt.mp hname) (String.not_lt.mp hnot)
    refine .inr ⟨hsame, Nat.lt_of_le_of_ne ?_ fun he => hne ?_⟩
    · exact Nat.le_of_not_lt fun hlt => hnumber ⟨hsame.symm, hlt⟩
    · cases t
      cases u
      rw [TypeName.mk.injEq]
      exact ⟨hsame.symm, he.symm⟩

end TypeName.Precedes

/-- In the order of types, without repetition. -/
def Ascending (ts : List TypeName) : Prop :=
  ts.Pairwise TypeName.Precedes

theorem Ascending.nodup {ts : List TypeName} (h : Ascending ts) : ts.Nodup := by
  unfold Ascending at h
  apply h.imp
  intro t u hlt he
  subst he
  exact hlt.irrefl

theorem mem_insertType {t u : TypeName} : ∀ {ts : List TypeName},
    u ∈ insertType t ts ↔ u = t ∨ u ∈ ts
  | [] => by simp [insertType]
  | v :: vs => by
    unfold insertType
    split
    · rename_i h
      simp [h]
    · split
      · simp
      · rw [List.mem_cons, mem_insertType, List.mem_cons]
        exact or_left_comm

theorem insertType_ascending {t : TypeName} :
    ∀ {ts : List TypeName}, Ascending ts → Ascending (insertType t ts)
  | [], _ => List.pairwise_singleton _ _
  | u :: us, h => by
    obtain ⟨hu, hus⟩ := List.pairwise_cons.mp h
    unfold insertType
    split
    · exact h
    · rename_i hne
      split
      · rename_i hle
        have htu : t.Precedes u := .of_le_of_ne hle hne
        refine List.pairwise_cons.mpr ⟨fun v hv => ?_, h⟩
        rcases List.mem_cons.mp hv with rfl | hv
        · exact htu
        · exact htu.trans (hu v hv)
      · rename_i hle
        refine List.pairwise_cons.mpr ⟨fun v hv => ?_, insertType_ascending hus⟩
        rcases mem_insertType.mp hv with rfl | hv
        · exact .of_not_le hle
        · exact hu v hv

namespace Composition

variable {c : Compositions}

/-- What one field adds, and what all of them add. -/
theorem foldlM_ascending {f : List TypeName → Field → Except ExportError (List TypeName)}
    (hf : ∀ ts field us, Ascending ts → f ts field = .ok us → Ascending us) :
    ∀ (fields : List Field) {ts us : List TypeName}, Ascending ts → fields.foldlM f ts = .ok us →
      Ascending us
  | [], ts, us, h, hu => by
    cases hu
    exact h
  | field :: fields, ts, us, h, hu => by
    rw [List.foldlM_cons] at hu
    cases hfield : f ts field with
    | error e =>
      rw [hfield] at hu
      cases hu
    | ok vs =>
      rw [hfield] at hu
      exact foldlM_ascending hf fields (hf ts field vs h hfield) hu

theorem walk_ascending : ∀ (depth : Nat) (embedding : List TypeName) (fields : List Field)
    {ts us : List TypeName}, Ascending ts → walk c depth embedding fields ts = .ok us → Ascending us
  | 0, _, _, ts, us, h, hu => by
    cases hu
    exact h
  | depth + 1, embedding, fields, ts, us, h, hu => by
    refine foldlM_ascending (fun ts field us h hu => ?_) fields h hu
    unfold addField at hu
    split at hu
    · split at hu
      · cases hu
      · split at hu
        · cases hu
        · cases hu
          exact insertType_ascending h
    · split at hu
      · cases hu
        exact h
      · split at hu
        · cases hu
        · exact walk_ascending depth _ _ h hu

end Composition

theorem autoExport_ascending {c : Compositions} {fields : List Field} {ts : List TypeName}
    (h : autoExport c fields = .ok ts) : Ascending ts :=
  Composition.walk_ascending _ _ _ List.Pairwise.nil h

theorem mem_foldr_insertType {t : TypeName} {ts : List TypeName} :
    ∀ {us : List TypeName}, t ∈ us.foldr insertType ts ↔ t ∈ us ∨ t ∈ ts
  | [] => by simp
  | u :: us => by
    rw [List.foldr_cons, mem_insertType, mem_foldr_insertType, List.mem_cons, or_assoc]

theorem foldr_insertType_ascending {ts : List TypeName} (h : Ascending ts) :
    ∀ us : List TypeName, Ascending (us.foldr insertType ts)
  | [] => h
  | _ :: us => insertType_ascending (foldr_insertType_ascending h us)

namespace Plan

variable {plan : Plan} {bean : Bean} {exports : List TypeName}

/-- The types that a bean is exported as are those that its composition offers with
those that were declared, and it implements them all. -/
theorem exportsOf_eq_ok (h : plan.exportsOf bean = .ok exports) :
    (∃ offered, Ascending offered ∧ exports = bean.exports.foldr insertType offered ∧
      (bean.composite = false → offered = []) ∧
      (bean.composite = true →
        autoExport plan.compositions (plan.compositions.of bean.type) = .ok offered)) ∧
    ∀ t ∈ exports, bean.implements t := by
  have hlast : ∀ offered : List TypeName,
      (bean.exports.foldr insertType offered).find? (!bean.implements ·) = none →
        ∀ t ∈ bean.exports.foldr insertType offered, bean.implements t := by
    intro offered hnone t ht
    have := List.find?_eq_none.mp hnone t ht
    simpa using this
  unfold exportsOf at h
  cases hc : bean.composite with
  | false =>
    simp only [hc, Bool.false_eq_true, if_false, pure_bind] at h
    split at h
    · cases h
    · rename_i hnone
      cases h
      exact ⟨⟨[], .nil, rfl, fun _ => rfl, nofun⟩, hlast [] hnone⟩
  | true =>
    cases ho : autoExport plan.compositions (plan.compositions.of bean.type) with
    | error cause =>
      rw [hc, ho] at h
      cases h
    | ok offered =>
      simp only [hc, ho, if_true, pure_bind] at h
      split at h
      · cases h
      · rename_i hnone
        cases h
        exact ⟨⟨offered, autoExport_ascending ho, rfl, nofun, fun _ => rfl⟩, hlast offered hnone⟩

theorem exportsOf_ascending (h : plan.exportsOf bean = .ok exports) : Ascending exports := by
  obtain ⟨⟨offered, ho, rfl, -⟩, -⟩ := exportsOf_eq_ok h
  exact foldr_insertType_ascending ho bean.exports

end Plan
end Inversion
