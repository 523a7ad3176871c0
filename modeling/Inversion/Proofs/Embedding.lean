/-
# Embedded parts

A field is reachable from a root if it is one of the root's fields, or a field of a part
that a reachable field opens, which is to embed it without exporting or injecting it
(`Reachable`). The walk over the parts remembers no part that it has left, only the parts
that it stands in, so a part that is embedded twice is walked twice, and only a part
inside itself stops it.

The parts around the walk are different types, and all but the innermost have a field.
So there are never more of them than the walk has depth for (`walkBeyond_eq_walk`), it
succeeds if nothing reachable stands in its way (`exists_walk`), and if it succeeds it
has seen what is reachable and nothing else (`walk_exact`).
-/
import Mathlib.Data.List.Perm.Subperm
import Mathlib.Logic.Relation
import Inversion.Proofs.Composition
import Inversion.Proofs.Outcome

namespace Inversion

/-- The field embeds a part, and what is in it counts. -/
def Field.Opens (f : Field) : Prop :=
  f.embedded ∧ ¬ f.exported ∧ ¬ f.injected

instance (f : Field) : Decidable f.Opens :=
  inferInstanceAs (Decidable (_ ∧ _))

/-- A type with fields is one of those that are listed. -/
theorem Compositions.mem_of_ne_nil {c : Compositions} {t : TypeName} (h : c.of t ≠ []) :
    t ∈ c.fields.map Prod.fst := by
  unfold Compositions.of at h
  cases hl : c.fields.lookup t with
  | none =>
    rw [hl] at h
    exact absurd rfl h
  | some fields =>
    obtain ⟨before, after, heq, -⟩ := List.lookup_eq_some_iff.mp hl
    rw [heq]
    simp

namespace Composition

variable {c : Compositions} {depth : Nat} {embedding : List TypeName} {fields root : List Field}
  {f g : Field} {t u : TypeName} {ts us : List TypeName}

/-! ### What is reachable -/

/-- The field is one of the root, or of a part that a reachable field opens. -/
inductive Reachable (c : Compositions) (root : List Field) : Field → Prop
  | own {f : Field} (mem : f ∈ root) : Reachable c root f
  | inside {f g : Field} (outer : Reachable c root f) (opens : f.Opens) (mem : g ∈ c.of f.type) :
    Reachable c root g

/-- A field of the first type opens a part of the second. -/
def Embeds (c : Compositions) (t u : TypeName) : Prop :=
  ∃ f ∈ c.of t, f.Opens ∧ f.type = u

/-- A reachable field exports the type. -/
def Offers (c : Compositions) (root : List Field) (t : TypeName) : Prop :=
  ∃ f, Reachable c root f ∧ f.exported ∧ f.type = t

/-- Reachable fields export interfaces that they do not inject, and open no part that
is inside itself. -/
structure Exportable (c : Compositions) (root : List Field) : Prop where
  interface : ∀ f, Reachable c root f → f.exported → f.type.isInterface ∧ ¬ f.injected
  acyclic : ∀ f, Reachable c root f → f.Opens → ¬ Relation.TransGen (Embeds c) f.type f.type

/-- By the first step from the root. -/
theorem reachable_iff :
    Reachable c root g ↔ g ∈ root ∨ ∃ f ∈ root, f.Opens ∧ Reachable c (c.of f.type) g := by
  constructor
  · intro h
    induction h with
    | own mem => exact .inl mem
    | inside _ opens mem ih =>
      rcases ih with hf | ⟨e, he, hopens, hf⟩
      · exact .inr ⟨_, hf, opens, .own mem⟩
      · exact .inr ⟨e, he, hopens, .inside hf opens mem⟩
  · rintro (h | ⟨f, hf, hopens, h⟩)
    · exact .own h
    · induction h with
      | own mem => exact .inside (.own hf) hopens mem
      | inside _ opens mem ih => exact .inside ih opens mem

theorem Reachable.of_opens (hf : f ∈ root) (hopens : f.Opens) (h : Reachable c (c.of f.type) g) :
    Reachable c root g :=
  reachable_iff.mpr (.inr ⟨f, hf, hopens, h⟩)

/-- A type is offered by a field of the root, or by a part that a field of it opens. -/
theorem offers_iff : Offers c root t ↔
    ∃ f ∈ root, f.exported ∧ f.type = t ∨ f.Opens ∧ Offers c (c.of f.type) t := by
  constructor
  · rintro ⟨g, hg, hoffer⟩
    rcases reachable_iff.mp hg with hg | ⟨f, hf, hopens, hg⟩
    · exact ⟨g, hg, .inl hoffer⟩
    · exact ⟨f, hf, .inr ⟨hopens, g, hg, hoffer⟩⟩
  · rintro ⟨f, hf, hoffer | ⟨hopens, g, hg, hoffer⟩⟩
    · exact ⟨f, .own hf, hoffer⟩
    · exact ⟨g, hg.of_opens hf hopens, hoffer⟩

/-- A type is inside another if a field opens it that is reachable there. -/
theorem transGen_embeds_iff :
    Relation.TransGen (Embeds c) t u ↔ ∃ f, Reachable c (c.of t) f ∧ f.Opens ∧ f.type = u := by
  constructor
  · intro h
    induction h with
    | single h =>
      obtain ⟨f, hf, hopens, rfl⟩ := h
      exact ⟨f, .own hf, hopens, rfl⟩
    | tail _ h ih =>
      obtain ⟨e, he, heopens, rfl⟩ := ih
      obtain ⟨f, hf, hopens, rfl⟩ := h
      exact ⟨f, .inside he heopens hf, hopens, rfl⟩
  · rintro ⟨f, h, hopens, rfl⟩
    induction h with
    | own mem => exact .single ⟨_, mem, hopens, rfl⟩
    | inside _ opens mem ih => exact (ih opens).tail ⟨_, mem, hopens, rfl⟩

theorem Exportable.of_opens (h : Exportable c root) (hf : f ∈ root) (hopens : f.Opens) :
    Exportable c (c.of f.type) :=
  ⟨fun g hg => h.interface g (hg.of_opens hf hopens),
    fun g hg => h.acyclic g (hg.of_opens hf hopens)⟩

/-! ### The fields of a composition -/

section
variable {walk walk' : List TypeName → List Field → List TypeName → Except ExportError (List TypeName)}

/-- A field is exported, passed over, or opened. -/
theorem addField_eq_ok : addField walk c embedding ts f = .ok us ↔
    f.exported ∧ f.type.isInterface ∧ ¬ f.injected ∧ us = insertType f.type ts ∨
    ¬ f.exported ∧ ¬ f.Opens ∧ us = ts ∨
    f.Opens ∧ f.type ∉ embedding ∧ walk (f.type :: embedding) (c.of f.type) ts = .ok us := by
  unfold addField Field.Opens
  cases f.exported <;> cases f.injected <;> cases f.embedded <;> cases f.type.isInterface <;>
    by_cases hin : f.type ∈ embedding <;> simp [hin, eq_comm]

theorem addField_congr (h : f.Opens → f.type ∉ embedding →
      walk (f.type :: embedding) (c.of f.type) ts = walk' (f.type :: embedding) (c.of f.type) ts) :
    addField walk c embedding ts f = addField walk' c embedding ts f := by
  unfold addField
  split
  · rfl
  · rename_i hexported
    split
    · rfl
    · rename_i hskip
      split
      · rfl
      · rename_i hin
        refine h ⟨?_, hexported, fun hi => hskip (.inl hi)⟩ hin
        cases he : f.embedded with
        | true => rfl
        | false => exact absurd (.inr (by rw [he]; rfl)) hskip

end

section
variable {add : List TypeName → Field → Except ExportError (List TypeName)}

theorem exists_foldlM : ∀ {fields : List Field}, (∀ f ∈ fields, ∀ ts, ∃ us, add ts f = .ok us) →
    ∀ ts, ∃ us, fields.foldlM add ts = .ok us
  | [], _, ts => ⟨ts, rfl⟩
  | f :: fields, h, ts => by
    obtain ⟨us, hus⟩ := h f List.mem_cons_self ts
    rw [List.foldlM_cons, hus]
    exact exists_foldlM (fun g hg => h g (List.mem_cons_of_mem f hg)) us

/-- If all fields can be added, each adds its own. -/
theorem foldlM_exact {A : Field → Prop} {B : Field → TypeName → Prop} :
    ∀ {fields : List Field}, (∀ f ∈ fields, ∀ ts us, add ts f = .ok us →
      A f ∧ ∀ t, t ∈ us ↔ t ∈ ts ∨ B f t) →
        ∀ {ts us : List TypeName}, fields.foldlM add ts = .ok us →
          (∀ f ∈ fields, A f) ∧ ∀ t, t ∈ us ↔ t ∈ ts ∨ ∃ f ∈ fields, B f t
  | [], _, ts, us, hu => by
    cases hu
    simp
  | f :: fields, h, ts, us, hu => by
    rw [List.foldlM_cons] at hu
    cases hf : add ts f with
    | error e =>
      rw [hf] at hu
      cases hu
    | ok vs =>
      rw [hf] at hu
      obtain ⟨hA, hvs⟩ := h f List.mem_cons_self ts vs hf
      obtain ⟨hall, hus⟩ := foldlM_exact (fun g hg => h g (List.mem_cons_of_mem f hg)) hu
      refine ⟨List.forall_mem_cons.mpr ⟨hA, hall⟩, fun t => ?_⟩
      rw [hus, hvs, or_assoc, List.exists_mem_cons_iff]

end

/-! ### The parts around the walk -/

/-- The walk stands in `embedding`, the innermost part first, over these fields of it. -/
structure Within (c : Compositions) (depth : Nat) (embedding : List TypeName)
    (fields : List Field) : Prop where
  distinct : embedding.Nodup
  outer : ∀ t ∈ embedding.tail, t ∈ c.fields.map Prod.fst
  inner : fields ≠ [] → ∀ t ∈ embedding, t ∈ c.fields.map Prod.fst
  depth : depth + embedding.length = c.fields.length + 2
  around : ∀ t ∈ embedding, ∀ f ∈ fields, f.Opens → Relation.TransGen (Embeds c) t f.type

theorem Within.start (c : Compositions) (fields : List Field) :
    Within c (c.fields.length + 2) [] fields :=
  ⟨.nil, nofun, fun _ => nofun, rfl, nofun⟩

theorem Within.enter (h : Within c (depth + 1) embedding fields) (hf : f ∈ fields) (hopens : f.Opens)
    (hnew : f.type ∉ embedding) : Within c depth (f.type :: embedding) (c.of f.type) where
  distinct := List.nodup_cons.mpr ⟨hnew, h.distinct⟩
  outer := h.inner (List.ne_nil_of_mem hf)
  inner hne := List.forall_mem_cons.mpr
    ⟨Compositions.mem_of_ne_nil hne, h.inner (List.ne_nil_of_mem hf)⟩
  depth := by
    have := h.depth
    rw [List.length_cons]
    omega
  around := by
    refine List.forall_mem_cons.mpr ⟨fun g hg hgopens => .single ⟨g, hg, hgopens, rfl⟩, ?_⟩
    exact fun t ht g hg hgopens => (h.around t ht f hf hopens).tail ⟨g, hg, hgopens, rfl⟩

/-- The types with fields are too few for the depth to be used up. -/
theorem Within.ne_zero (h : Within c depth embedding fields) : depth ≠ 0 := by
  rintro rfl
  have hdepth := h.depth
  have hle : embedding.tail.length ≤ (c.fields.map Prod.fst).length :=
    (List.subperm_of_subset h.distinct.tail h.outer).length_le
  rw [List.length_tail, List.length_map] at hle
  omega

/-! ### Walks -/

/-- `walk`, with `beyond` where the depth is used up. -/
def walkBeyond
    (beyond : List TypeName → List Field → List TypeName → Except ExportError (List TypeName))
    (c : Compositions) :
    Nat → List TypeName → List Field → List TypeName → Except ExportError (List TypeName)
  | 0, embedding, fields, exports => beyond embedding fields exports
  | depth + 1, embedding, fields, exports =>
    fields.foldlM (addField (walkBeyond beyond c depth) c embedding) exports

/-- What stands where the depth is used up is never called. -/
theorem walkBeyond_eq_walk
    (beyond : List TypeName → List Field → List TypeName → Except ExportError (List TypeName)) :
    ∀ {depth : Nat} {embedding : List TypeName} {fields : List Field},
      Within c depth embedding fields → ∀ ts,
        walkBeyond beyond c depth embedding fields ts = walk c depth embedding fields ts
  | 0, _, _, h, _ => absurd rfl h.ne_zero
  | _ + 1, _, _, h, ts => foldlM_congr (fun _ hf ts => addField_congr fun hopens hnew =>
      walkBeyond_eq_walk beyond (h.enter hf hopens hnew) ts) ts

theorem exists_walk : ∀ {depth : Nat} {embedding : List TypeName} {fields : List Field},
    Within c depth embedding fields → Exportable c fields → ∀ ts,
      ∃ us, walk c depth embedding fields ts = .ok us
  | 0, _, _, h, _, _ => absurd rfl h.ne_zero
  | depth + 1, embedding, fields, h, hfields, ts => by
    refine exists_foldlM (fun f hf ts => ?_) ts
    by_cases hexported : f.exported
    · obtain ⟨hinterface, hinjected⟩ := hfields.interface f (.own hf) hexported
      exact ⟨_, addField_eq_ok.mpr (.inl ⟨hexported, hinterface, hinjected, rfl⟩)⟩
    by_cases hopens : f.Opens
    · have hnew : f.type ∉ embedding := fun hin =>
        hfields.acyclic f (.own hf) hopens (h.around f.type hin f hf hopens)
      obtain ⟨us, hus⟩ := exists_walk (h.enter hf hopens hnew) (hfields.of_opens hf hopens) ts
      exact ⟨us, addField_eq_ok.mpr (.inr (.inr ⟨hopens, hnew, hus⟩))⟩
    · exact ⟨ts, addField_eq_ok.mpr (.inr (.inl ⟨hexported, hopens, rfl⟩))⟩

/-- What a walk has seen that came to its end. -/
structure Seen (c : Compositions) (embedding : List TypeName) (fields : List Field)
    (ts us : List TypeName) : Prop extends Exportable c fields where
  outside : ∀ f, Reachable c fields f → f.Opens → f.type ∉ embedding
  mem : ∀ t, t ∈ us ↔ t ∈ ts ∨ Offers c fields t

/-- What it has found of one field, with the part that the field opens. -/
structure Cleared (c : Compositions) (embedding : List TypeName) (f : Field) : Prop where
  interface : f.exported → f.type.isInterface ∧ ¬ f.injected
  outside : f.Opens → f.type ∉ embedding
  part : f.Opens → Exportable c (c.of f.type)
  apart : f.Opens → ∀ g, Reachable c (c.of f.type) g → g.Opens → g.type ∉ f.type :: embedding

theorem Seen.of_cleared (hfields : ∀ f ∈ fields, Cleared c embedding f)
    (hmem : ∀ t, t ∈ us ↔ t ∈ ts ∨ Offers c fields t) : Seen c embedding fields ts us where
  interface g hg hexported := by
    rcases reachable_iff.mp hg with hg | ⟨f, hf, hopens, hg⟩
    · exact (hfields g hg).interface hexported
    · exact ((hfields f hf).part hopens).interface g hg hexported
  acyclic g hg hgopens := by
    rcases reachable_iff.mp hg with hg | ⟨f, hf, hopens, hg⟩
    · -- to come back to the type of the field is to open it while it is still open
      intro hcycle
      obtain ⟨e, he, heopens, htype⟩ := transGen_embeds_iff.mp hcycle
      refine (hfields g hg).apart hgopens e he heopens ?_
      rw [htype]
      exact List.mem_cons_self
    · exact ((hfields f hf).part hopens).acyclic g hg hgopens
  outside g hg hgopens := by
    rcases reachable_iff.mp hg with hg | ⟨f, hf, hopens, hg⟩
    · exact (hfields g hg).outside hgopens
    · exact fun hin => (hfields f hf).apart hopens g hg hgopens (List.mem_cons_of_mem _ hin)
  mem := hmem

theorem addField_exact
    (hwalk : f.Opens → ∀ ts us, walk c depth (f.type :: embedding) (c.of f.type) ts = .ok us →
      f.type ∉ embedding → Seen c (f.type :: embedding) (c.of f.type) ts us)
    (hadd : addField (walk c depth) c embedding ts f = .ok us) :
    Cleared c embedding f ∧
      ∀ t, t ∈ us ↔ t ∈ ts ∨ f.exported ∧ f.type = t ∨ f.Opens ∧ Offers c (c.of f.type) t := by
  rcases addField_eq_ok.mp hadd with ⟨hexported, hinterface, hinjected, rfl⟩ |
    ⟨hexported, hclosed, rfl⟩ | ⟨hopens, hnew, hpart⟩
  · have hclosed : ¬ f.Opens := fun hopens => hopens.2.1 hexported
    refine ⟨⟨fun _ => ⟨hinterface, hinjected⟩, fun ho => absurd ho hclosed,
      fun ho => absurd ho hclosed, fun ho => absurd ho hclosed⟩, fun t => ?_⟩
    rw [mem_insertType]
    simp [hexported, hclosed, or_comm, eq_comm (a := t)]
  · refine ⟨⟨fun he => absurd he hexported, fun ho => absurd ho hclosed,
      fun ho => absurd ho hclosed, fun ho => absurd ho hclosed⟩, fun t => ?_⟩
    simp [hexported, hclosed]
  · have hseen := hwalk hopens ts us hpart hnew
    refine ⟨⟨fun he => absurd he hopens.2.1, fun _ => hnew, fun _ => hseen.toExportable,
      fun _ => hseen.outside⟩, fun t => ?_⟩
    simp [hopens, hopens.2.1, hseen.mem]

theorem walk_exact : ∀ {depth : Nat} {embedding : List TypeName} {fields : List Field},
    Within c depth embedding fields → ∀ {ts us : List TypeName},
      walk c depth embedding fields ts = .ok us → Seen c embedding fields ts us
  | 0, _, _, h, _, _, _ => absurd rfl h.ne_zero
  | _ + 1, _, _, h, _, _, hu => by
    obtain ⟨hfields, hmem⟩ := foldlM_exact (fun f hf ts us hadd =>
      addField_exact (fun hopens ts us hpart hnew => walk_exact (h.enter hf hopens hnew) hpart)
        hadd) hu
    refine .of_cleared hfields fun t => ?_
    rw [hmem, offers_iff]

end Composition

open Inversion.Composition

/-! ### Exports -/

variable {c : Compositions} {fields : List Field} {ts : List TypeName}

theorem autoExport_eq_walkBeyond
    (beyond : List TypeName → List Field → List TypeName → Except ExportError (List TypeName))
    (c : Compositions) (fields : List Field) :
    walkBeyond beyond c (c.fields.length + 2) [] fields [] = autoExport c fields :=
  walkBeyond_eq_walk beyond (.start c fields) []

theorem autoExport_ok_iff :
    (∃ ts, autoExport c fields = .ok ts) ↔ Exportable c fields :=
  ⟨fun ⟨_, h⟩ => (walk_exact (.start c fields) h).toExportable,
    fun h => exists_walk (.start c fields) h []⟩

theorem mem_autoExport (h : autoExport c fields = .ok ts) (t : TypeName) :
    t ∈ ts ↔ Offers c fields t :=
  ((walk_exact (.start c fields) h).mem t).trans (or_iff_right List.not_mem_nil)

end Inversion
