/-
# What lookups do not depend on

Of a plan, conditions see the properties, the identities of the beans and whether the
context is cancelled, and resolutions see the beans and the compositions besides. Of the
conditions of a bean, they see what these come to. So two plans that differ in their
injectors, and in the words that say the conditions of their beans, have the same lookups, resolve
the same beans and judge configurations alike (`Plan.Reworded.find`,
`Plan.Reworded.resolveAll`, `Plan.Reworded.admitted`).
-/
import Inversion.Proofs.Algebra
import Inversion.Proofs.Lookup.Evaluation

namespace Inversion

variable {plan plan' : Plan}

/-! ### Conditions -/

section
variable {find : Selector → Checking (List Nat)}

theorem Probe.run_congr (h : plan'.backdrop = plan.backdrop) :
    ∀ probe : Probe, probe.run plan' find = probe.run plan find
  | answer _ => rfl
  | fail _ => rfl
  | raise _ => rfl
  | note entry next => by
    simp only [Probe.run, run_congr h next]
  | .find sel next => by
    simp only [Probe.run, show plan'.idOf = plan.idOf from congrArg Backdrop.idOf h]
    exact bind_congr fun found => run_congr h _
  | attempt sel next => by
    simp only [Probe.run, show plan'.idOf = plan.idOf from congrArg Backdrop.idOf h]
    exact bind_congr fun result => run_congr h _
  | properties next => by
    simp only [Probe.run, show plan'.properties = plan.properties from congrArg Backdrop.properties h]
    exact run_congr h _
  | cancelled next => by
    simp only [Probe.run, show plan'.cancelled = plan.cancelled from congrArg Backdrop.cancelled h]
    exact run_congr h _

mutual
theorem Condition.holds_congr (h : plan'.backdrop = plan.backdrop) :
    ∀ c : Condition, c.holds plan' find = c.holds plan find
  | .property _ _ _ => by
    simp only [Condition.holds,
      show plan'.properties = plan.properties from congrArg Backdrop.properties h]
  | .missingProperty _ => by
    simp only [Condition.holds,
      show plan'.properties = plan.properties from congrArg Backdrop.properties h]
  | .beans _ _ => by simp only [Condition.holds]
  | .not c => by simp only [Condition.holds, Condition.holds_congr h c]
  | .all cs => by simp only [Condition.holds, allHold_congr h cs]
  | .any cs => by simp only [Condition.holds, anyHolds_congr h cs]
  | .probe pr => by simp only [Condition.holds, Probe.run_congr h pr]
  | .context message c => by simp only [Condition.holds, Condition.holds_congr h c]

theorem allHold_congr (h : plan'.backdrop = plan.backdrop) :
    ∀ cs : List Condition, allHold plan' find cs = allHold plan find cs
  | [] => by simp only [allHold]
  | c :: cs => by simp only [allHold, Condition.holds_congr h c, allHold_congr h cs]

theorem anyHolds_congr (h : plan'.backdrop = plan.backdrop) :
    ∀ cs : List Condition, anyHolds plan' find cs = anyHolds plan find cs
  | [] => by simp only [anyHolds]
  | c :: cs => by simp only [anyHolds, Condition.holds_congr h c, anyHolds_congr h cs]
end

end

/-! ### Other words -/

/-- The same bean, with conditions that come to the same. -/
structure Bean.Reworded (bean bean' : Bean) : Prop where
  conditions : Condition.AllAlike bean.conditions bean'.conditions
  rest : bean' = { bean with conditions := bean'.conditions }

/-- The same configuration, with conditions that come to the same. -/
structure Configuration.Reworded (configuration configuration' : Configuration) : Prop where
  conditions : Condition.AllAlike configuration.conditions configuration'.conditions
  rest : configuration' = { configuration with conditions := configuration'.conditions }

/-- The same beans in the same surroundings, in other words and perhaps with another injector. -/
structure Plan.Reworded (plan plan' : Plan) : Prop where
  beans : List.Forall₂ Bean.Reworded plan.beans plan'.beans
  properties : plan'.properties = plan.properties
  compositions : plan'.compositions = plan.compositions
  cancelled : plan'.cancelled = plan.cancelled

theorem Bean.Reworded.refl (bean : Bean) : bean.Reworded bean :=
  ⟨.refl bean.conditions, rfl⟩

theorem Configuration.Reworded.refl (configuration : Configuration) :
    configuration.Reworded configuration :=
  ⟨.refl configuration.conditions, rfl⟩

/-- Lists whose members are related have related members in the same places. -/
theorem getElem?_of_forall₂ {α β : Type} {R : α → β → Prop} {as : List α} {bs : List β}
    (h : List.Forall₂ R as bs) (i : Nat) : (as[i]? = none ∧ bs[i]? = none) ∨
      ∃ a b, as[i]? = some a ∧ bs[i]? = some b ∧ R a b := by
  have hlen : as.length = bs.length := h.length_eq
  by_cases hi : i < as.length
  · have hi' : i < bs.length := hlen ▸ hi
    exact .inr ⟨_, _, List.getElem?_eq_getElem hi, List.getElem?_eq_getElem hi', h.get hi hi'⟩
  · have hout : as.length ≤ i := Nat.le_of_not_lt hi
    exact .inl ⟨List.getElem?_eq_none hout, List.getElem?_eq_none (hlen ▸ hout)⟩

namespace Plan.Reworded

theorem refl (plan : Plan) : plan.Reworded plan :=
  ⟨List.forall₂_same.mpr fun bean _ => .refl bean, rfl, rfl, rfl⟩

section
variable (h : plan.Reworded plan')
include h

theorem getElem? (b : Nat) : (plan.beans[b]? = none ∧ plan'.beans[b]? = none) ∨
    ∃ bean cs, plan.beans[b]? = some bean ∧
      plan'.beans[b]? = some { bean with conditions := cs } ∧
      Condition.AllAlike bean.conditions cs := by
  rcases getElem?_of_forall₂ h.beans b with hnone | ⟨bean, bean', hb, hb', hr⟩
  · exact .inl hnone
  · exact .inr ⟨bean, bean'.conditions, hb, hr.rest ▸ hb', hr.conditions⟩

/-! ### Resolutions -/

/-- What is read of a bean, its conditions apart. -/
theorem read {α : Type} (f : Option Bean → α)
    (hf : ∀ (bean : Bean) cs, f (some { bean with conditions := cs }) = f (some bean)) (b : Nat) :
    f plan'.beans[b]? = f plan.beans[b]? := by
  rcases h.getElem? b with ⟨hb, hb'⟩ | ⟨bean, cs, hb, hb', -⟩
  · rw [hb, hb']
  · rw [hb, hb', hf]

theorem idOf : plan'.idOf = plan.idOf :=
  funext (h.read (·.elim "" Bean.id) fun _ _ => rfl)

theorem mayMatch : plan'.mayMatch = plan.mayMatch :=
  funext fun sel => funext (h.read (·.any sel.mayMatch) fun _ _ => rfl)

theorem selects : plan'.selects = plan.selects :=
  funext fun r => funext fun sel => funext fun b =>
    h.read (·.any fun bean => sel.matchesBean bean (r.exports b)) (fun _ _ => rfl) b

theorem backdrop : plan'.backdrop = plan.backdrop := by
  unfold Plan.backdrop
  rw [h.properties, h.cancelled, h.idOf]

theorem scan {resolve : Nat → Resolving Unit} {sel : Selector} :
    ∀ bs : List Nat, plan'.scan resolve sel bs = plan.scan resolve sel bs
  | [] => rfl
  | b :: bs => by simp only [Plan.scan, scan bs, h.idOf, h.selects]

theorem findWith : plan'.findWith = plan.findWith := by
  funext resolve sel
  unfold Plan.findWith candidates
  simp only [h.scan, h.mayMatch]

theorem accept (b : Nat) (bean : Bean) (cs : List Condition) :
    plan'.accept b { bean with conditions := cs } = plan.accept b bean := by
  unfold Plan.accept exportsOf
  rw [h.compositions]
  rfl

theorem delete : plan'.delete = plan.delete := by
  funext b
  unfold Plan.delete discard
  rw [h.idOf]

theorem resolve : ∀ n b, plan'.resolve n b = plan.resolve n b
  | 0, _ => rfl
  | n + 1, b => by
    have ih : plan'.resolve n = plan.resolve n := funext (resolve n)
    rcases h.getElem? b with ⟨hb, hb'⟩ | ⟨bean, cs, hb, hb', hc⟩
    · rw [Plan.resolve, Plan.resolve, hb, hb']
    · rw [Plan.resolve, Plan.resolve, hb, hb']
      simp only [ih, h.findWith, allHold_congr h.backdrop, hc plan, h.accept, h.delete]
      rfl

theorem resolveBean : plan'.resolveBean = plan.resolveBean := by
  funext b
  unfold Plan.resolveBean
  rw [← h.beans.length_eq, h.resolve]

theorem find : plan'.find = plan.find := by
  funext sel
  unfold Plan.find
  rw [h.findWith, h.resolveBean]

theorem resolveAll : plan'.resolveAll = plan.resolveAll := by
  unfold Plan.resolveAll
  rw [h.resolveBean, h.beans.length_eq]

/-! ### Configurations -/

theorem admits {configuration configuration' : Configuration}
    (hc : configuration.Reworded configuration') (c : Nat) :
    plan'.admits configuration' c = plan.admits configuration c := by
  rw [hc.rest]
  unfold Plan.admits
  simp only [h.find, allHold_congr h.backdrop, hc.conditions plan]
  rfl

/-- The configurations that take part are the same, in the words that `f` gives them. -/
theorem admitted (f : Configuration × Nat → Configuration × Nat) :
    ∀ cs : List (Configuration × Nat), (∀ x ∈ cs, x.1.Reworded (f x).1 ∧ (f x).2 = x.2) →
      plan'.admitted (cs.map f) = List.map f <$> plan.admitted cs
  | [], _ => by simp only [List.map_nil, Plan.admitted, map_pure]
  | (configuration, c) :: cs, hf => by
    obtain ⟨hreworded, hplace⟩ := hf (configuration, c) List.mem_cons_self
    have ih := admitted f cs fun x hx => hf x (List.mem_cons_of_mem _ hx)
    have hadmits : plan'.admits (f (configuration, c)).1 (f (configuration, c)).2 =
        plan.admits configuration c := by
      rw [hplace, h.admits hreworded]
    rw [List.map_cons, Plan.admitted, Plan.admitted, hadmits, ih]
    simp only [bind_map_left, map_bind, map_pure]
    refine bind_congr fun holds => bind_congr fun rest => ?_
    cases holds <;> rfl

end
end Plan.Reworded

/-! ### Other injectors -/

/-- The plan with another injector. -/
abbrev Plan.withInjector (plan : Plan) (injector : Injector) : Plan :=
  { plan with injector }

namespace Plan

variable {injector : Injector}

theorem reworded_withInjector : plan.Reworded (plan.withInjector injector) :=
  { Reworded.refl plan with }

theorem find_withInjector (sel : Selector) :
    (plan.withInjector injector).find sel = plan.find sel :=
  congrFun reworded_withInjector.find sel

theorem resolveAll_withInjector : (plan.withInjector injector).resolveAll = plan.resolveAll :=
  reworded_withInjector.resolveAll

theorem admitted_withInjector (cs : List (Configuration × Nat)) :
    (plan.withInjector injector).admitted cs = plan.admitted cs := by
  have hreworded : plan.Reworded (plan.withInjector injector) := reworded_withInjector
  have h := hreworded.admitted id cs fun x _ => ⟨.refl x.1, rfl⟩
  rwa [List.map_id, List.map_id_fun, id_map] at h

end Plan
end Inversion
