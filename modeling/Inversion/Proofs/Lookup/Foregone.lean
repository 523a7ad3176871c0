/-
# Conditions when all beans have begun

Once every bean has begun, a lookup resolves nothing any more. Then what a condition comes
to depends on the beans alone, and not on what has happened before: it is a foregone
conclusion (`allHold_foregone`). So it does not matter when a configuration is judged, or
which others are judged before it, and those that take part can be told one by one
(`admitted_foregone`).
-/
import Inversion.Proofs.Wiring.Gathering

namespace Inversion

/-- From wherever the registry is `r` the check comes to the same, and adds only remarks. -/
def Foregone {ε α : Type} (r : Registry) (x : ExceptT ε (StateM Progress) α) : Prop :=
  ∃ v, ∀ p : Progress, p.registry = r → After x p fun y q => p.Remarked q ∧ y = v

section
variable {ε δ α β : Type} {r : Registry}

theorem foregone_pure (a : α) : Foregone r (pure a : ExceptT ε (StateM Progress) α) :=
  ⟨.ok a, fun _ _ => ⟨.refl, rfl⟩⟩

theorem foregone_throw (e : ε) : Foregone r (throw e : ExceptT ε (StateM Progress) α) :=
  ⟨.error e, fun _ _ => ⟨.refl, rfl⟩⟩

theorem foregone_note {e : Event} (he : e.IsRemark) :
    Foregone r (modify (·.note e) : ExceptT ε (StateM Progress) PUnit) :=
  ⟨.ok ⟨⟩, fun _ _ => ⟨Progress.Remarked.refl.note he, rfl⟩⟩

theorem Foregone.bind {x : ExceptT ε (StateM Progress) α} {f : α → ExceptT ε (StateM Progress) β}
    (hx : Foregone r x) (hf : ∀ a, Foregone r (f a)) : Foregone r (x >>= f) := by
  obtain ⟨v, hv⟩ := hx
  cases v with
  | error e =>
    refine ⟨.error e, fun p hp => ?_⟩
    rw [after_bind]
    refine (hv p hp).mono fun y q ⟨hq, hy⟩ => ?_
    rw [hy, continues_error]
    exact ⟨hq, rfl⟩
  | ok a =>
    obtain ⟨w, hw⟩ := hf a
    refine ⟨w, fun p hp => ?_⟩
    rw [after_bind]
    refine (hv p hp).mono fun y q ⟨hq, hy⟩ => ?_
    rw [hy, continues_ok]
    exact (hw q (hq.registry.trans hp)).mono fun _ _ ⟨ht, hy⟩ => ⟨hq.trans ht, hy⟩

theorem Foregone.adapt {x : ExceptT ε (StateM Progress) α} (h : Foregone r x) (f : ε → δ) :
    Foregone r (x.adapt f) := by
  obtain ⟨v, hv⟩ := h
  refine ⟨v.mapError f, fun p hp => ?_⟩
  rw [after_adapt]
  exact (hv p hp).mono fun y q ⟨hq, hy⟩ => ⟨hq, by rw [hy]⟩

theorem Foregone.observe {x : Checking α} (h : Foregone r x) : Foregone r (observe x) := by
  obtain ⟨v, hv⟩ := h
  refine ⟨.ok v, fun p hp => ?_⟩
  rw [after_observe]
  exact (hv p hp).mono fun y q ⟨hq, hy⟩ => ⟨hq, by rw [hy]⟩

/-- The history does not matter, nor how many instances have been made. -/
theorem Foregone.after {x : ExceptT ε (StateM Progress) α} (h : Foregone r x) {p : Progress}
    (hp : p.registry = r) :
    After x p fun y q => p.Remarked q ∧ y = (outcome x ⟨r, 0, []⟩).1 := by
  obtain ⟨v, hv⟩ := h
  have hblank : (outcome x ⟨r, 0, []⟩).1 = v := (hv ⟨r, 0, []⟩ rfl).2
  rw [hblank]
  exact hv p hp

end

/-! ### Conditions -/

section
variable {plan : Plan} {find : Selector → Checking (List Nat)} {r : Registry}

theorem Probe.run_foregone (h : ∀ sel, Foregone r (find sel)) :
    ∀ probe : Probe, Foregone r (probe.run plan find)
  | answer b => foregone_pure b
  | fail message => foregone_throw _
  | raise cause => foregone_throw cause
  | note entry next => by
    simp only [Probe.run]
    exact (foregone_note (by trivial)).bind fun _ => run_foregone h next
  | .find sel next => by
    simp only [Probe.run]
    exact (h sel).bind fun found => run_foregone h _
  | attempt sel next => by
    simp only [Probe.run]
    exact (h sel).observe.bind fun result => run_foregone h _
  | properties next => by
    simp only [Probe.run]
    exact run_foregone h _
  | cancelled next => by
    simp only [Probe.run]
    exact run_foregone h _

mutual
theorem Condition.holds_foregone (h : ∀ sel, Foregone r (find sel)) :
    ∀ c : Condition, Foregone r (c.holds plan find)
  | .property key value ifMissing => by
    simp only [Condition.holds]
    exact (foregone_note (by trivial)).bind fun _ => foregone_pure _
  | .missingProperty key => by
    simp only [Condition.holds]
    exact (foregone_note (by trivial)).bind fun _ => foregone_pure _
  | .beans expectation sel => by
    simp only [Condition.holds]
    exact (foregone_note (by trivial)).bind fun _ => (h sel).bind fun _ => foregone_pure _
  | .not c => by
    simp only [Condition.holds]
    exact (Condition.holds_foregone h c).bind fun _ => foregone_pure _
  | .all cs => by
    simp only [Condition.holds]
    exact allHold_foregone h cs
  | .any cs => by
    simp only [Condition.holds]
    exact anyHolds_foregone h cs
  | .probe pr => by
    simp only [Condition.holds]
    exact (foregone_note (by trivial)).bind fun _ => pr.run_foregone h
  | .context message c => by
    simp only [Condition.holds]
    exact (Condition.holds_foregone h c).adapt _

theorem allHold_foregone (h : ∀ sel, Foregone r (find sel)) :
    ∀ cs : List Condition, Foregone r (allHold plan find cs)
  | [] => foregone_pure true
  | c :: cs => by
    simp only [allHold]
    refine (Condition.holds_foregone h c).bind fun b => ?_
    cases b with
    | true => exact allHold_foregone h cs
    | false => exact foregone_pure false

theorem anyHolds_foregone (h : ∀ sel, Foregone r (find sel)) :
    ∀ cs : List Condition, Foregone r (anyHolds plan find cs)
  | [] => foregone_pure false
  | c :: cs => by
    simp only [anyHolds]
    refine (Condition.holds_foregone h c).bind fun b => ?_
    cases b with
    | true => exact foregone_pure true
    | false => exact anyHolds_foregone h cs
end

end

/-! ### Configurations -/

namespace Plan

variable {plan : Plan} {r : Registry}

/-- What the conditions of a configuration come to where the registry is `r`. -/
def admission (plan : Plan) (r : Registry) (configuration : Configuration) : Except Fault Bool :=
  (outcome (allHold plan (fun sel => (plan.find sel).adapt Fault.lookup) configuration.conditions)
    ⟨r, 0, []⟩).1

theorem find_foregone (hr : r.Calm) (sel : Selector) : Foregone r (plan.find sel) :=
  ⟨.ok (plan.present r sel), fun p hp => by
    have hfound : After (plan.find sel) p fun y q =>
        p.Remarked q ∧ y = .ok (plan.present p.registry sel) := find_of_calm (hp ▸ hr) sel
    rwa [hp] at hfound⟩

theorem admits_foregone (hr : r.Calm) (configuration : Configuration) (c : Nat) {p : Progress}
    (hp : p.registry = r) :
    After (plan.admits configuration c) p fun y q => p.Remarked q ∧
      y = (plan.admission r configuration).mapError (.condition configuration.title) := by
  have hholds : Foregone r (allHold plan (fun sel => (plan.find sel).adapt Fault.lookup)
      configuration.conditions) :=
    allHold_foregone (fun sel => (find_foregone hr sel).adapt Fault.lookup) _
  unfold admits
  rw [after_bind, after_adapt]
  refine (hholds.after hp).mono fun y q ⟨hq, hy⟩ => ?_
  rw [← show plan.admission r configuration = y from hy.symm]
  cases plan.admission r configuration with
  | error fault => exact ⟨hq, rfl⟩
  | ok holds =>
    cases holds with
    | true => exact ⟨hq, rfl⟩
    | false => exact ⟨hq.note trivial, rfl⟩

/-- Configurations are admitted one by one, up to the first that cannot be judged. -/
theorem admitted_foregone (hr : r.Calm) : ∀ (cs : List (Configuration × Nat)) (p : Progress),
    p.registry = r → After (plan.admitted cs) p fun y q => p.Remarked q ∧
      ((∃ x ∈ cs, ∃ fault, plan.admission r x.1 = .error fault ∧
          y = .error (.condition x.1.title fault)) ∨
        (∀ x ∈ cs, ∃ v, plan.admission r x.1 = .ok v) ∧
          y = .ok (cs.filter fun x => plan.admission r x.1 = .ok true))
  | [], _, _ => ⟨.refl, .inr ⟨nofun, rfl⟩⟩
  | (configuration, c) :: cs, p, hp => by
    rw [admitted, after_bind]
    refine (admits_foregone hr configuration c hp).mono fun y q hadmits => ?_
    obtain ⟨hq, hy⟩ := hadmits
    cases hv : plan.admission r configuration with
    | error fault =>
      rw [hy, hv]
      exact ⟨hq, .inl ⟨_, List.mem_cons_self, fault, hv, rfl⟩⟩
    | ok holds =>
      rw [hy, hv]
      simp only [Except.mapError, continues_ok, after_bind]
      refine (admitted_foregone hr cs q (hq.registry.trans hp)).mono fun y t hrest => ?_
      rcases hrest with ⟨ht, ⟨x, hx, fault, hfault, hy⟩ | ⟨hall, hy⟩⟩
      · rw [hy]
        exact ⟨hq.trans ht, .inl ⟨x, List.mem_cons_of_mem _ hx, fault, hfault, rfl⟩⟩
      · rw [hy, continues_ok, after_pure]
        refine ⟨hq.trans ht, .inr ⟨List.forall_mem_cons.mpr ⟨⟨holds, hv⟩, hall⟩, ?_⟩⟩
        rw [List.filter_cons]
        cases holds <;> simp [hv]

end Plan
end Inversion
