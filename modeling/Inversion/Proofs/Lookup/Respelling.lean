/-
# Types selected by their names

The text of a type's full name and a colon selects the same beans as the type does, if no
other type goes by this name (`Plan.answersTo_parse`). But it makes every bean a candidate, and
the candidates are resolved while all their lookups pass over the bean that asks. So
what becomes of the beans may change (`respelling_changes_statuses`).

It does not if all that is passed over is deleted in the end (`respelling_keeps_statuses`): then
both runs come to the same supported set of beans.
-/
import Inversion.Proofs.Lookup.Independence
import Inversion.Proofs.Lookup.Supported
import Inversion.Proofs.Selector

namespace Inversion

/-! ### Respelled conditions -/

mutual
/-- The same condition, with some selectors of a type given by texts. -/
inductive Condition.Respelled (t : TypeName) : Condition → Condition → Prop
  | same (c : Condition) : Respelled t c c
  | text (expectation : Expectation) :
    Respelled t (.beans expectation (.type t)) (.beans expectation (.parse (t.name ++ ":")))
  | not {c c' : Condition} : Respelled t c c' → Respelled t (.not c) (.not c')
  | all {cs cs' : List Condition} : AllRespelled t cs cs' → Respelled t (.all cs) (.all cs')
  | any {cs cs' : List Condition} : AllRespelled t cs cs' → Respelled t (.any cs) (.any cs')
  | context (message : String) {c c' : Condition} :
    Respelled t c c' → Respelled t (.context message c) (.context message c')

inductive Condition.AllRespelled (t : TypeName) : List Condition → List Condition → Prop
  | nil : AllRespelled t [] []
  | cons {c c' : Condition} {cs cs' : List Condition} :
    Respelled t c c' → AllRespelled t cs cs' → AllRespelled t (c :: cs) (c' :: cs')
end

section
variable {t : TypeName} {backdrop : Backdrop} {known : Findings}

mutual
theorem Condition.Respelled.propagates : ∀ {c c' : Condition},
    c.Respelled t c' → c.Propagates → c'.Propagates
  | _, _, .same _, hp => hp
  | _, _, .text _, _ => trivial
  | _, _, .not h, hp => by
    have hc := Condition.Respelled.propagates h hp
    exact hc
  | _, _, .all h, hp => Condition.AllRespelled.allPropagate h hp
  | _, _, .any h, hp => Condition.AllRespelled.allPropagate h hp
  | _, _, .context _ h, hp => by
    have hc := Condition.Respelled.propagates h hp
    exact hc

theorem Condition.AllRespelled.allPropagate : ∀ {cs cs' : List Condition},
    Condition.AllRespelled t cs cs' → Condition.AllPropagate cs → Condition.AllPropagate cs'
  | _, _, .nil, _ => trivial
  | _, _, .cons h hs, hp =>
    ⟨Condition.Respelled.propagates h hp.1, Condition.AllRespelled.allPropagate hs hp.2⟩
end

/-- Where the type and its text have the same answers, so have the conditions. -/
theorem exists_known_congr (hsel : known (.type t) = known (.parse (t.name ++ ":")))
    (expectation : Expectation) (v : Bool) :
    (Condition.beans expectation (.type t)).Yields backdrop known v ↔
      (Condition.beans expectation (.parse (t.name ++ ":"))).Yields backdrop known v := by
  show (∃ found, known (.type t) found ∧ _) ↔ ∃ found, known (.parse (t.name ++ ":")) found ∧ _
  rw [hsel]

mutual
/-- Where the type and its text have the same answers, so have the conditions. -/
theorem Condition.Respelled.yields_iff (hsel : known (.type t) = known (.parse (t.name ++ ":"))) :
    ∀ {c c' : Condition}, c.Respelled t c' → ∀ v,
      (c.Yields backdrop known v ↔ c'.Yields backdrop known v)
  | _, _, .same _, _ => .rfl
  | _, _, .text expectation, v => exists_known_congr hsel expectation v
  | _, _, .not h, v => Condition.Respelled.yields_iff hsel h (!v)
  | _, _, .all h, v => Condition.AllRespelled.allYield_iff hsel h v
  | _, _, .any h, v => Condition.AllRespelled.anyYields_iff hsel h v
  | _, _, .context _ h, v => Condition.Respelled.yields_iff hsel h v

theorem Condition.AllRespelled.allYield_iff
    (hsel : known (.type t) = known (.parse (t.name ++ ":"))) :
    ∀ {cs cs' : List Condition}, Condition.AllRespelled t cs cs' → ∀ v,
      (AllYield backdrop known cs v ↔ AllYield backdrop known cs' v)
  | _, _, .nil, _ => .rfl
  | _, _, .cons h hs, v => or_congr
    (and_congr (Condition.Respelled.yields_iff hsel h true)
      (Condition.AllRespelled.allYield_iff hsel hs v))
    (and_congr_left' (Condition.Respelled.yields_iff hsel h false))

theorem Condition.AllRespelled.anyYields_iff
    (hsel : known (.type t) = known (.parse (t.name ++ ":"))) :
    ∀ {cs cs' : List Condition}, Condition.AllRespelled t cs cs' → ∀ v,
      (AnyYields backdrop known cs v ↔ AnyYields backdrop known cs' v)
  | _, _, .nil, _ => .rfl
  | _, _, .cons h hs, v => or_congr
    (and_congr (Condition.Respelled.yields_iff hsel h false)
      (Condition.AllRespelled.anyYields_iff hsel hs v))
    (and_congr_left' (Condition.Respelled.yields_iff hsel h true))
end

end

theorem Condition.AllRespelled.refl (t : TypeName) (cs : List Condition) :
    Condition.AllRespelled t cs cs := by
  induction cs with
  | nil => exact .nil
  | cons c cs ih => exact .cons (.same c) ih

/-! ### Respelled beans -/

/-- The same bean with respelled conditions. -/
structure Bean.Respelled (t : TypeName) (bean bean' : Bean) : Prop where
  conditions : Condition.AllRespelled t bean.conditions bean'.conditions
  rest : bean' = { bean with conditions := bean'.conditions }

theorem Bean.Respelled.refl (t : TypeName) (bean : Bean) : bean.Respelled t bean :=
  ⟨.refl t bean.conditions, rfl⟩

/-- The same beans with respelled conditions, in the same surroundings. -/
structure Plan.Respelled (t : TypeName) (plan plan' : Plan) : Prop where
  beans : List.Forall₂ (Bean.Respelled t) plan.beans plan'.beans
  compositions : plan'.compositions = plan.compositions
  properties : plan'.properties = plan.properties
  cancelled : plan'.cancelled = plan.cancelled

/-- The full name of a type is that of no other type that a bean has or declares as an export, be
it in full or in short. -/
def Plan.Unmistakable (plan : Plan) (t : TypeName) : Prop :=
  ∀ bean ∈ plan.beans, ∀ u ∈ bean.type :: bean.exports, u.answersTo t.name → u = t

instance (plan : Plan) (t : TypeName) : Decidable (plan.Unmistakable t) :=
  inferInstanceAs (Decidable (∀ bean ∈ plan.beans, ∀ u ∈ bean.type :: bean.exports, _ → _))

/-- A text that neither is empty nor ends with a colon is read as that of a type. -/
theorem Selector.parse_of_type {s : String} (hne : s ≠ "") (hlast : s.toList.getLast? ≠ some ':') :
    Selector.parse (s ++ ":") = .parsed s none := by
  have h := parse_of_legible (n := none) ⟨hne, hlast, nofun⟩
  rwa [display, Option.getD_none, String.append_empty] at h

namespace Plan.Respelled

variable {t : TypeName} {plan plan' : Plan}

theorem getElem? (h : plan.Respelled t plan') (b : Nat) :
    (plan.beans[b]? = none ∧ plan'.beans[b]? = none) ∨ ∃ bean bean', plan.beans[b]? = some bean ∧
      plan'.beans[b]? = some bean' ∧ bean.Respelled t bean' :=
  getElem?_of_forall₂ h.beans b

theorem allPropagate (h : plan.Respelled t plan')
    (hprop : ∀ bean ∈ plan.beans, Condition.AllPropagate bean.conditions) :
    ∀ bean ∈ plan'.beans, Condition.AllPropagate bean.conditions := by
  intro bean' hbean'
  obtain ⟨b, hb⟩ := List.mem_iff_getElem?.mp hbean'
  rcases h.getElem? b with ⟨-, hnone⟩ | ⟨bean, bean'', hbean, hb', hr⟩
  · rw [hnone] at hb
    cases hb
  · cases Option.some.inj (hb.symm.trans hb')
    exact hr.conditions.allPropagate (hprop bean (List.mem_of_getElem? hbean))

/-- Selectors do not look at conditions. -/
theorem answersTo (h : plan.Respelled t plan') (sel : Selector) (b : Nat) :
    plan'.answersTo sel b = plan.answersTo sel b := by
  unfold Plan.answersTo
  rcases h.getElem? b with ⟨hb, hb'⟩ | ⟨bean, bean', hb, hb', hr⟩
  · rw [hb, hb']
    rfl
  · rw [hb, hb', Option.any_some, Option.any_some, hr.rest]
    unfold answers exportsOf
    rw [h.compositions]
    rfl

theorem backdrop (h : plan.Respelled t plan') : plan'.backdrop = plan.backdrop := by
  have hid : plan'.idOf = plan.idOf := by
    funext b
    unfold idOf
    rcases h.getElem? b with ⟨hb, hb'⟩ | ⟨bean, bean', hb, hb', hr⟩
    · rw [hb, hb']
    · rw [hb, hb', hr.rest]
      rfl
  unfold Plan.backdrop
  rw [h.properties, h.cancelled, hid]

theorem full (h : plan.Respelled t plan') (active : Nat → Bool) (b : Nat) :
    plan'.Full active b = plan.Full active b := by
  funext sel found
  unfold Full
  rw [← h.beans.length_eq]
  simp only [h.answersTo]

theorem supports_iff (h : plan.Respelled t plan')
    (hsel : ∀ b, plan.answersTo (.parse (t.name ++ ":")) b = plan.answersTo (.type t) b)
    (active : Nat → Bool) : plan.Supports active ↔ plan'.Supports active := by
  have hknown : ∀ b, plan.Full active b (.type t) = plan.Full active b (.parse (t.name ++ ":")) := by
    intro b
    funext found
    unfold Full
    simp only [hsel]
  unfold Supports
  refine forall_congr' fun b => ?_
  rcases h.getElem? b with ⟨hb, hb'⟩ | ⟨bean, bean', hb, hb', hr⟩
  · rw [hb, hb']
    exact iff_of_true nofun nofun
  · rw [hb, hb', h.backdrop, h.full]
    have hyield : AllYield plan.backdrop (plan.Full active b) bean.conditions (active b) ↔
        AllYield plan.backdrop (plan.Full active b) bean'.conditions (active b) :=
      hr.conditions.allYield_iff (hknown b) (active b)
    refine ⟨fun hs => ?_, fun hs => ?_⟩
    · rintro _ ⟨⟩
      exact hyield.mp (hs bean rfl)
    · rintro _ ⟨⟩
      exact hyield.mpr (hs bean' rfl)

/-- If all beans that either run passes over are deleted at the end of one of them, then all
beans come to the same in both. -/
theorem status_eq (h : plan.Respelled t plan')
    (hsel : ∀ b, plan.answersTo (.parse (t.name ++ ":")) b = plan.answersTo (.type t) b)
    {q q' : Progress} (ha : plan.Accounted q) (ha' : plan'.Accounted q')
    (hpassed : (∀ c ∈ plan.passedOver q.history ++ plan'.passedOver q'.history,
        q.registry.status c = .deleted) ∨
      ∀ c ∈ plan.passedOver q.history ++ plan'.passedOver q'.history, q'.registry.status c = .deleted)
    (b : Nat) : q'.registry.status b = q.registry.status b := by
  have hpending : ∀ {s : Status}, s = .deleted → s.isSettled = false := by
    rintro _ rfl
    rfl
  have hsettled : (q'.registry.status b).isSettled = (q.registry.status b).isSettled := by
    by_cases hb : b < plan.beans.length
    · rcases hpassed with hpassed | hpassed
      · have hs := ha.supports fun c hc => hpassed c (List.mem_append_left _ hc)
        exact ha'.eq_of_supports ((h.supports_iff hsel _).mp hs)
          (fun c hc => hpending (hpassed c (List.mem_append_right _ hc))) (h.beans.length_eq ▸ hb)
      · have hs := ha'.supports fun c hc => hpassed c (List.mem_append_right _ hc)
        exact (ha.eq_of_supports ((h.supports_iff hsel _).mpr hs)
          (fun c hc => hpending (hpassed c (List.mem_append_left _ hc))) hb).symm
    · have hb' : ¬ b < plan'.beans.length := h.beans.length_eq ▸ hb
      rw [ha.status_of_unregistered hb, ha'.status_of_unregistered hb']
  rcases ha.resolved_or_deleted b with hb | hb <;>
    rcases ha'.resolved_or_deleted b with hb' | hb' <;> rw [hb, hb'] at hsettled ⊢ <;> cases hsettled

end Plan.Respelled

/-! ### Types and their names -/

/-- Without compositions, the full name of a type selects what the type does. -/
theorem Plan.answersTo_parse {plan : Plan} {t : TypeName} (hname : t.name ≠ "")
    (hlast : t.name.toList.getLast? ≠ some ':') (hunique : plan.Unmistakable t)
    (hplain : ∀ bean ∈ plan.beans, bean.composite = false) (b : Nat) :
    plan.answersTo (.parse (t.name ++ ":")) b = plan.answersTo (.type t) b := by
  rw [Selector.parse_of_type hname hlast]
  unfold answersTo
  cases hb : plan.beans[b]? with
  | none => rfl
  | some bean =>
    have hbean : bean ∈ plan.beans := List.mem_of_getElem? hb
    rw [Option.any_some, Option.any_some]
    unfold answers
    cases he : plan.exportsOf bean with
    | error e => rfl
    | ok exports =>
      have hdeclared : ∀ u ∈ exports, u ∈ bean.exports := by
        intro u hu
        obtain ⟨⟨offered, -, rfl, hoffered, -⟩, -⟩ := exportsOf_eq_ok he
        rw [hoffered (hplain bean hbean), mem_foldr_insertType] at hu
        exact hu.resolve_right List.not_mem_nil
      have hself : ∀ u : TypeName, u = bean.type ∨ u ∈ exports →
          (u.answersTo t.name ↔ u = t) := by
        refine fun u hu => ⟨hunique bean hbean u
          (List.mem_cons.mpr (hu.imp_right (hdeclared u))), ?_⟩
        rintro rfl
        unfold TypeName.answersTo
        simp
      show (true && (bean.type.answersTo t.name || exports.any (·.answersTo t.name))) =
        (bean.type == t || exports.contains t)
      rw [Bool.true_and, Bool.eq_iff_iff]
      simp only [Bool.or_eq_true, List.any_eq_true, beq_iff_eq, List.contains_iff_mem]
      refine or_congr (hself _ (.inl rfl)) ⟨fun ⟨u, hu, ha⟩ => ?_, fun ht => ?_⟩
      · exact (hself u (.inr hu)).mp ha ▸ hu
      · exact ⟨t, ht, (hself t (.inr ht)).mpr rfl⟩

/-! ### Containers -/

namespace Container

/-- What the resolution of all beans comes to in a frozen container. -/
def resolution (f : Container) : Except ResolveError Unit × Progress :=
  outcome f.plan.resolveAll f.progress

/-- Two frozen containers with the same beans except that in conditions of the second one some
selectors of a type are given by its full name and a colon. No bean is composite, the name is
that of no other type, and the resolutions of both succeed. -/
structure Respelled (t : TypeName) (f f' : Container) : Prop where
  plan : f.plan.Respelled t f'.plan
  named : t.name ≠ ""
  ended : t.name.toList.getLast? ≠ some ':'
  unmistakable : f.plan.Unmistakable t
  plain : ∀ bean ∈ f.beans, bean.composite = false
  succeeds : f.resolution.1 = .ok ()
  succeeds' : f'.resolution.1 = .ok ()

/-- A client that asks for a server and for more, a guard for the case that the client is
missing, and the server. -/
def hideout (sel : Selector) (more : List Condition) : List Operation :=
  let bean (n : Nat) (type : String) (conditions : List Condition) : Bean :=
    { Bean.plain (.of type) (.main n) (.constructor ⟨[], .part, type, none⟩) with conditions }
  [.register (bean 1 "app::Client" (.beans .some sel :: more)),
    .register (bean 2 "app::Guard" [.beans .none (.type (.of "app::Client"))]),
    .register (bean 3 "app::Server" [])]

/-- A clerk that attempts to find the client, and a ghost only if it has found one; a client
that asks for a server; the ghost, whose condition fails; and the server. -/
def mishap (sel : Selector) : List Operation :=
  let bean (n : Nat) (type : String) (conditions : List Condition) : Bean :=
    { Bean.plain (.of type) (.main n) (.constructor ⟨[], .part, type, none⟩) with conditions }
  [.register (bean 1 "app::Clerk" [.probe (.attempt (.type (.of "app::Client")) fun
      | .ok _ => .attempt (.type (.of "app::Ghost")) fun _ => .answer true
      | .error _ => .answer true)]),
    .register (bean 2 "app::Client" [.beans .some sel]),
    .register (bean 3 "app::Ghost" [.probe (.fail "gone")]),
    .register (bean 4 "app::Server" [])]

/-- The container with these beans, about to be refreshed. -/
abbrev ready (ops : List Operation) : Container :=
  ((empty .standard ⟨[]⟩).performAll ops).2.freeze.2

/-- The hideout about to be refreshed, with the server selected by its type. -/
abbrev typedHideout (more : List Condition) : Container :=
  ready (hideout (.type (.of "app::Server")) more)

/-- The same with the name of the server. -/
abbrev namedHideout (more : List Condition) : Container :=
  ready (hideout (.parse ("app::Server" ++ ":")) more)

theorem hideout_respelled (more : List Condition) :
    (typedHideout more).plan.Respelled (.of "app::Server") (namedHideout more).plan :=
  ⟨.cons ⟨.cons (.text .some) (.refl _ more), rfl⟩ (.cons (.refl _ _) (.cons (.refl _ _) .nil)),
    rfl, rfl, rfl⟩

/-- A type selected by its name may change what becomes of the beans. The guard of the hideout is
a candidate then, and does not find the client that is waiting for it. And the ghost of the
mishap is one, whose failure ends that of the client in an attempt that goes on. -/
theorem respelling_changes_statuses :
    (let f := typedHideout []
      let f' := namedHideout []
      f.Respelled (.of "app::Server") f' ∧
        (∀ bean ∈ f.beans, Condition.AllPropagate bean.conditions) ∧
        f.resolution.2.registry.status 1 = .deleted ∧
        f'.resolution.2.registry.status 1 = .resolved ∧
        f'.plan.passedOver f'.resolution.2.history = [0] ∧
        f'.resolution.2.registry.status 0 = .resolved) ∧
    (let f := ready (mishap (.type (.of "app::Server")))
      let f' := ready (mishap (.parse ("app::Server" ++ ":")))
      f.Respelled (.of "app::Server") f' ∧
        f.plan.passedOver f.resolution.2.history = [] ∧
        f'.plan.passedOver f'.resolution.2.history = [] ∧
        f.resolution.2.registry.status 1 = .resolved ∧
        f'.resolution.2.registry.status 1 = .resolving) := by
  have hhideout : (typedHideout []).Respelled (.of "app::Server") (namedHideout []) :=
    ⟨hideout_respelled [], by decide, by decide, by decide +kernel, by decide +kernel,
      by decide +kernel, by decide +kernel⟩
  have hmishap : (ready (mishap (.type (.of "app::Server")))).Respelled (.of "app::Server")
      (ready (mishap (.parse ("app::Server" ++ ":")))) := by
    refine ⟨⟨?_, rfl, rfl, rfl⟩, by decide, by decide, by decide +kernel, by decide +kernel,
      by decide +kernel, by decide +kernel⟩
    exact .cons (.refl _ _) (.cons ⟨.cons (.text .some) .nil, rfl⟩
      (.cons (.refl _ _) (.cons (.refl _ _) .nil)))
  have hplain : (typedHideout []).beans.all fun bean => Condition.arePlain bean.conditions := by
    decide +kernel
  refine ⟨⟨hhideout, fun bean hbean => ?_, ?_⟩, hmishap, ?_⟩
  · exact Condition.allPropagate_of_arePlain _ (List.all_eq_true.mp hplain bean hbean)
  · decide +kernel
  · decide +kernel

/-- With any injectors, for any operations that lead to two containers about to be refreshed, of
which the second has some selectors of a type respelled: if no condition goes on after a failed
lookup, and each bean that a lookup in either has passed over although it matches, other than
the bean that asks, is deleted at the end of one and the same of them, then every bean has the
same status at the end of both. -/
theorem respelling_keeps_statuses (injector injector' : Injector) (compositions : Compositions)
    (ops ops' : List Operation) (t : TypeName) :
    let c := ((empty injector compositions).performAll ops).2
    let c' := ((empty injector' compositions).performAll ops').2
    let f := c.freeze.2
    let f' := c'.freeze.2
    c.phase = .unrefreshed → c'.phase = .unrefreshed → f.Respelled t f' →
      (∀ bean ∈ f.beans, Condition.AllPropagate bean.conditions) →
      let q := f.resolution.2
      let q' := f'.resolution.2
      ((∀ b ∈ f.plan.passedOver q.history ++ f'.plan.passedOver q'.history,
          q.registry.status b = .deleted) ∨
        ∀ b ∈ f.plan.passedOver q.history ++ f'.plan.passedOver q'.history,
          q'.registry.status b = .deleted) →
        ∀ b, q'.registry.status b = q.registry.status b := by
  intro c c' f f' hnew hnew' h hprop q q' hpassed b
  have hfrozen : Frozen f.plan f.progress :=
    (performAll_lasts lasts_thrifty injector compositions ops).frozen hnew
  have hfrozen' : Frozen f'.plan f'.progress :=
    (performAll_lasts lasts_thrifty injector' compositions ops').frozen hnew'
  have hprop' : ∀ bean ∈ f'.beans, Condition.AllPropagate bean.conditions :=
    h.plan.allPropagate hprop
  have ha : f.plan.Accounted q := Plan.resolveAll_accounted hprop hfrozen (Prod.ext h.succeeds rfl)
  have ha' : f'.plan.Accounted q' :=
    Plan.resolveAll_accounted hprop' hfrozen' (Prod.ext h.succeeds' rfl)
  exact h.plan.status_eq (Plan.answersTo_parse h.named h.ended h.unmistakable h.plain) ha ha' hpassed b

/-- The client is passed over by the guard, but a missing property deletes it in the end. -/
theorem respelling_keeps_statuses_of_hideout :
    let f := typedHideout [.property "server.url" none false]
    let f' := namedHideout [.property "server.url" none false]
    f.Respelled (.of "app::Server") f' ∧ f'.plan.passedOver f'.resolution.2.history = [0] ∧
      ∀ b, f'.resolution.2.registry.status b = f.resolution.2.registry.status b := by
  have hrespelled : (typedHideout [.property "server.url" none false]).Respelled (.of "app::Server")
      (namedHideout [.property "server.url" none false]) :=
    ⟨hideout_respelled _, by decide, by decide, by decide +kernel, by decide +kernel,
      by decide +kernel, by decide +kernel⟩
  have hplain : (typedHideout [.property "server.url" none false]).beans.all
      fun bean => Condition.arePlain bean.conditions := by decide +kernel
  have hkeeps := respelling_keeps_statuses .standard .standard ⟨[]⟩
    (hideout (.type (.of "app::Server")) [.property "server.url" none false])
    (hideout (.parse ("app::Server" ++ ":")) [.property "server.url" none false]) (.of "app::Server")
    (by decide +kernel) (by decide +kernel) hrespelled
  refine ⟨hrespelled, by decide +kernel, hkeeps (fun bean hbean => ?_) (.inl (by decide +kernel))⟩
  exact Condition.allPropagate_of_arePlain _ (List.all_eq_true.mp hplain bean hbean)

end Container
end Inversion
