/-
# What operations do to a container

`Undergoes` lists what an operation may do to the phase, the beans, the progress and
the destroyers of a container: nothing but a note aside, a refresh, which freezes the
beans first, a lookup that resolves, or a close. So what these keep holds of every
container that operations lead to (`performAll_keeps`).

Most often this is a property of the progress from the refresh on. It lasts (`Lasts`)
if a refresh and the lookups after it keep it, and the notes of all else that
operations do (`performAll_lasts`).
-/
import Inversion.Container
import Inversion.Proofs.Outcome

namespace Inversion

/-- The notes of operations that leave the beans alone. -/
def Event.IsAside : Event → Prop
  | taskSpawned _ => True
  | propertiesLoaded _ => True
  | _ => False

/-- Events that follow a wiring without changing what it came to. -/
def Event.IsAfterword : Event → Prop
  | refreshed => True
  | refreshFailed _ => True
  | tasksExited => True
  | teardown _ _ _ => True
  | destroyed _ => True
  | destroyFailed _ _ => True
  | closed => True
  | taskSpawned _ => True
  | propertiesLoaded _ => True
  | _ => False

theorem Event.IsAside.isAfterword {e : Event} (h : e.IsAside) : e.IsAfterword := by
  cases e <;> trivial

namespace Container

abbrev events (c : Container) : List Event :=
  c.progress.events

/-- What the refresh of a frozen container comes to. -/
def course (c : Container) : Except RefreshError (List Nat) × Assembly :=
  outcome (c.plan.refresh c.configurations) (.start c.progress)

/-- The parts of a container that matter to its beans are the same. -/
structure Alike (c c' : Container) : Prop where
  phase : c'.phase = c.phase
  injector : c'.injector = c.injector
  compositions : c'.compositions = c.compositions
  beans : c'.beans = c.beans
  destroyers : c'.destroyers = c.destroyers
  properties : c.phase ≠ .unrefreshed → c'.properties = c.properties

theorem Alike.refl (c : Container) : Alike c c :=
  ⟨rfl, rfl, rfl, rfl, rfl, fun _ => rfl⟩

theorem Alike.of_progress {c c' : Container} (h : Alike c c') (p : Progress) :
    Alike { c with progress := p } c' :=
  ⟨h.phase, h.injector, h.compositions, h.beans, h.destroyers, h.properties⟩

inductive Undergoes (c : Container) : Container → Prop
  | nothing {c' : Container} (alike : Alike c c') (progress : c'.progress = c.progress) :
    Undergoes c c'
  | noted {c' : Container} (alike : Alike c c') (e : Event) (aside : e.IsAside)
    (progress : c'.progress = c.progress.note e) : Undergoes c c'
  | refused (new : c.phase = .unrefreshed) (panic : Panic) (clash : c.freeze.1 = some panic) :
    Undergoes c c.freeze.2
  | refreshed (new : c.phase = .unrefreshed) (distinct : c.freeze.1 = none) :
    Undergoes c c.freeze.2.complete.2
  | found (refreshing : c.phase = .refreshing) (sel : Selector) :
    Undergoes c { c with progress := (outcome (c.plan.find sel) c.progress).2 }
  | closed (refreshed : c.phase = .refreshed) : Undergoes c c.close.2

theorem refresh_of_distinct {c : Container} (hn : c.phase = .unrefreshed) (hd : c.freeze.1 = none) :
    c.refresh = c.freeze.2.complete := by
  unfold refresh
  rw [hn, show c.freeze = (none, c.freeze.2) from Prod.ext hd rfl]

theorem refresh_of_clash {c : Container} {panic : Panic} (hn : c.phase = .unrefreshed)
    (hc : c.freeze.1 = some panic) : c.refresh = (.error panic, c.freeze.2) := by
  unfold refresh
  rw [hn, show c.freeze = (some panic, c.freeze.2) from Prod.ext hc rfl]

theorem perform_undergoes (op : Operation) (c : Container) : Undergoes c (c.perform op).2 := by
  cases op with
  | register bean =>
    show Undergoes c (c.register bean).2
    unfold register
    split <;> exact .nothing ⟨rfl, rfl, rfl, rfl, rfl, fun _ => rfl⟩ rfl
  | configure configuration =>
    show Undergoes c (c.configure configuration).2
    unfold configure
    split <;> exact .nothing ⟨rfl, rfl, rfl, rfl, rfl, fun _ => rfl⟩ rfl
  | setProperty key setting =>
    show Undergoes c (c.setProperty key setting).2
    unfold setProperty
    split
    · rename_i hp
      exact .nothing ⟨rfl, rfl, rfl, rfl, rfl, fun hn => absurd hp hn⟩ rfl
    · exact .nothing (.refl c) rfl
  | load file content =>
    show Undergoes c (c.load file content).2
    unfold load
    split
    · rename_i hp
      split
      · exact .noted ⟨rfl, rfl, rfl, rfl, rfl, fun hn => absurd hp hn⟩ (.propertiesLoaded file)
          (by trivial) rfl
      · exact .nothing ⟨rfl, rfl, rfl, rfl, rfl, fun hn => absurd hp hn⟩ rfl
    · exact .nothing (.refl c) rfl
  | refresh =>
    show Undergoes c c.refresh.2
    cases hp : c.phase with
    | unrefreshed =>
      cases hf : c.freeze.1 with
      | some panic =>
        rw [refresh_of_clash hp hf]
        exact .refused hp panic hf
      | none =>
        rw [refresh_of_distinct hp hf]
        exact .refreshed hp hf
    | _ =>
      unfold refresh
      rw [hp]
      exact .nothing (.refl c) rfl
  | find sel =>
    show Undergoes c (c.find sel).2
    unfold find
    split
    · exact .nothing (.refl c) rfl
    · rename_i hp
      exact .found hp sel
    · exact .nothing (.refl c) rfl
  | get t => exact .nothing (.refl c) rfl
  | getNamed t name => exact .nothing (.refl c) rfl
  | getAll t => exact .nothing (.refl c) rfl
  | spawn script =>
    exact .noted ⟨rfl, rfl, rfl, rfl, rfl, fun _ => rfl⟩ (.taskSpawned c.supervisor.threads.length)
      (by trivial) rfl
  | cancel => exact .nothing ⟨rfl, rfl, rfl, rfl, rfl, fun _ => rfl⟩ rfl
  | close =>
    show Undergoes c c.close.2
    cases hp : c.phase with
    | refreshed => exact .closed hp
    | _ =>
      unfold close
      rw [hp]
      exact .nothing (.refl c) rfl

theorem performAll_keeps {P : Container → Prop} (h : ∀ c c', Undergoes c c' → P c → P c') :
    ∀ (ops : List Operation) (c : Container), P c → P (c.performAll ops).2
  | [], _, hc => hc
  | op :: ops, c, hc => performAll_keeps h ops (c.perform op).2 (h c _ (perform_undergoes op c) hc)

/-- To carry out two lists of operations is to carry out the first and then the second. -/
theorem performAll_append : ∀ (ops more : List Operation) (c : Container),
    (c.performAll (ops ++ more)).2 = ((c.performAll ops).2.performAll more).2
  | [], _, _ => rfl
  | op :: ops, more, c => performAll_append ops more (c.perform op).2

/-! ### Refreshes -/

/-- All beans are enrolled, or those in front of the first whose identity is taken. -/
theorem enroll_spec : ∀ (bs accepted : List Bean), (accepted.map Bean.id).Nodup →
    (enroll accepted bs = (accepted ++ bs, none) ∧ ((accepted ++ bs).map Bean.id).Nodup) ∨
      ∃ front b rest a, bs = front ++ b :: rest ∧ a ∈ accepted ++ front ∧ a.id = b.id ∧
        enroll accepted bs = (accepted ++ front, some (a, b)) ∧
        ((accepted ++ front).map Bean.id).Nodup
  | [], accepted, h => by
    rw [List.append_nil]
    exact .inl ⟨rfl, h⟩
  | b :: bs, accepted, h => by
    cases htaken : accepted.find? (fun a => a.id == b.id) with
    | some a =>
      have ha : a ∈ accepted := List.mem_of_find?_eq_some htaken
      have hid : a.id = b.id := by simpa using List.find?_some htaken
      refine .inr ⟨[], b, bs, a, rfl, ?_, hid, ?_, ?_⟩
      · rwa [List.append_nil]
      · rw [enroll, htaken, List.append_nil]
      · rwa [List.append_nil]
    | none =>
      have hnext : ((accepted ++ [b]).map Bean.id).Nodup := by
        rw [List.map_append, List.map_singleton]
        refine List.nodup_append.mpr ⟨h, by simp, fun id hid id' hid' he => ?_⟩
        obtain ⟨a, ha, rfl⟩ := List.mem_map.mp hid
        have hsame : a.id = b.id := he.trans (List.mem_singleton.mp hid')
        exact List.find?_eq_none.mp htaken a ha (beq_iff_eq.mpr hsame)
      have hstep : enroll accepted (b :: bs) = enroll (accepted ++ [b]) bs := by rw [enroll, htaken]
      have hsplit : ∀ cs, accepted ++ [b] ++ cs = accepted ++ b :: cs := fun cs => by simp
      rw [hstep]
      rcases enroll_spec bs (accepted ++ [b]) hnext with
        ⟨hall, hids⟩ | ⟨front, c, rest, a, rfl, ha, hid, hclash, hids⟩
      · rw [hsplit] at hall hids
        exact .inl ⟨hall, hids⟩
      · rw [hsplit] at ha hclash hids
        exact .inr ⟨b :: front, c, rest, a, rfl, ha, hid, hclash, hids⟩

theorem freeze_spec (c : Container) : c.freeze.2 = { c with
    phase := .refreshing, pending := [], beans := c.freeze.2.beans,
    progress := { c.progress with registry := Registry.ofBeans c.freeze.2.beans } } := by
  unfold freeze
  rcases enroll [] c.pending with ⟨beans, clash⟩
  rfl

/-- What a freeze comes to. All beans are frozen, or those in front of the first one whose identity
is that of a bean before it. -/
theorem freeze_cases (c : Container) :
    (c.freeze.1 = none ∧ c.freeze.2.beans = c.pending ∧ (c.pending.map Bean.id).Nodup) ∨
      ∃ front b rest a, c.pending = front ++ b :: rest ∧ a ∈ front ∧ a.id = b.id ∧
        c.freeze.1 = some (.duplicate a.description b.description) ∧ c.freeze.2.beans = front ∧
        (front.map Bean.id).Nodup := by
  unfold freeze
  rcases enroll_spec c.pending [] List.nodup_nil with
    ⟨hall, hids⟩ | ⟨front, b, rest, a, hpending, ha, hid, hclash, hids⟩
  · rw [hall]
    exact .inl ⟨rfl, rfl, hids⟩
  · rw [hclash]
    exact .inr ⟨front, b, rest, a, hpending, ha, hid, rfl, rfl, hids⟩

/-- The frozen beans are the first of the registered ones. -/
theorem beans_freeze (c : Container) : c.freeze.2.beans <+: c.pending := by
  rcases c.freeze_cases with ⟨-, hbeans, -⟩ | ⟨front, b, rest, a, hpending, -, -, -, hbeans, -⟩
  · exact ⟨[], by rw [hbeans, List.append_nil]⟩
  · exact ⟨b :: rest, by rw [hbeans, hpending]⟩

theorem nodup_freeze (c : Container) : (c.freeze.2.beans.map Bean.id).Nodup := by
  rcases c.freeze_cases with ⟨-, hbeans, hids⟩ | ⟨front, b, rest, a, -, -, -, -, hbeans, hids⟩
  · rwa [hbeans]
  · rwa [hbeans]

/-- What a container becomes by its refresh. -/
theorem complete_spec (c : Container) :
    (∃ ds, c.course.1 = .ok ds ∧ c.complete.2 = { c with
      phase := .refreshed, configurations := [], destroyers := ds,
      progress := c.course.2.progress.note .refreshed }) ∨
    (∃ e p, c.course.1 = .error e ∧
      (p = c.course.2.progress ∨ p = c.course.2.progress.note (.refreshFailed e.message)) ∧
      c.complete.2 = { c with configurations := [], progress := p }) := by
  unfold complete
  rw [show (c.plan.refresh c.configurations).run.run (.start c.progress) = c.course from rfl]
  rcases hc : c.course with ⟨r, a⟩
  cases r with
  | ok ds => exact .inl ⟨ds, rfl, rfl⟩
  | error e =>
    right
    cases e with
    | resolve cause =>
      by_cases hf : cause.isFatal
      · exact ⟨_, _, rfl, .inl rfl, by simp [hf]⟩
      · exact ⟨_, _, rfl, .inr rfl, by simp [hf]; rfl⟩
    | sort cause => exact ⟨_, _, rfl, .inr rfl, rfl⟩
    | configuration name cause => exact ⟨_, _, rfl, .inr rfl, rfl⟩
    | wire path cause => exact ⟨_, _, rfl, .inr rfl, rfl⟩

theorem phase_complete {c : Container} (hn : c.phase ≠ .unrefreshed) :
    c.complete.2.phase ≠ .unrefreshed := by
  rcases complete_spec c with ⟨ds, -, hc⟩ | ⟨e, p, -, -, hc⟩ <;> rw [hc]
  · exact nofun
  · exact hn

theorem phase_close (c : Container) : c.close.2.phase = c.phase := by
  unfold close
  cases hp : c.phase <;> first | rfl | exact hp

theorem beans_complete (c : Container) : c.complete.2.beans = c.beans := by
  rcases complete_spec c with ⟨ds, -, hc⟩ | ⟨e, p, -, -, hc⟩ <;> rw [hc]

theorem beans_close (c : Container) : c.close.2.beans = c.beans := by
  unfold close
  cases c.phase <;> rfl

/-- A refresh succeeds if it has an order of the destroyers for its result. -/
theorem complete_ok_iff {c : Container} :
    c.complete.1 = .ok (.ok ()) ↔ ∃ ds, c.course.1 = .ok ds := by
  unfold complete
  rw [show (c.plan.refresh c.configurations).run.run (.start c.progress) = c.course from rfl]
  rcases c.course with ⟨r, a⟩
  cases r with
  | ok ds => exact iff_of_true rfl ⟨ds, rfl⟩
  | error e =>
    refine iff_of_false ?_ (by rintro ⟨ds, hds⟩; cases hds)
    cases e with
    | resolve cause => by_cases hf : cause.isFatal <;> simp [hf]
    | sort cause => simp
    | configuration name cause => simp
    | wire path cause => simp

theorem course_of_complete {c : Container} {e : RefreshError} (h : c.complete.1 = .ok (.error e)) :
    c.course.1 = .error e := by
  revert h
  unfold complete
  rw [show (c.plan.refresh c.configurations).run.run (.start c.progress) = c.course from rfl]
  rcases c.course with ⟨r, a⟩
  cases r with
  | ok ds => exact nofun
  | error d =>
    cases d with
    | resolve cause =>
      by_cases hf : cause.isFatal
      · simp [hf]
      · simp only [hf]
        exact fun h => by cases h; rfl
    | _ => exact fun h => by cases h; rfl

/-- Only a fatal failure to resolve the beans breaks a refresh off. -/
theorem resolve_of_complete {c : Container} {panic : Panic} (h : c.complete.1 = .error panic) :
    ∃ cause, panic = .fatal cause ∧ cause.isFatal ∧ c.course.1 = .error (.resolve cause) := by
  revert h
  unfold complete
  rw [show (c.plan.refresh c.configurations).run.run (.start c.progress) = c.course from rfl]
  rcases c.course with ⟨r, a⟩
  cases r with
  | ok ds => exact nofun
  | error e =>
    cases e with
    | resolve cause =>
      by_cases hf : cause.isFatal
      · simp only [hf]
        intro h
        exact ⟨cause, (Except.error.inj h).symm, hf, rfl⟩
      · simp [hf]
    | _ => exact nofun

/-! ### Registrations -/

/-- All beans and configurations of the container are of some kind. -/
structure Stocked (P : Bean → Prop) (Q : Configuration → Prop) (c : Container) : Prop where
  pending : ∀ bean ∈ c.pending, P bean
  beans : ∀ bean ∈ c.beans, P bean
  configurations : ∀ configuration ∈ c.configurations, Q configuration

section
variable {P : Bean → Prop} {Q : Configuration → Prop} {c : Container}

theorem Stocked.freeze (h : Stocked P Q c) : Stocked P Q c.freeze.2 where
  pending _ hbean := absurd hbean List.not_mem_nil
  beans bean hbean := h.pending bean (c.beans_freeze.subset hbean)
  configurations := h.configurations

theorem Stocked.complete (h : Stocked P Q c) : Stocked P Q c.complete.2 := by
  rcases complete_spec c with ⟨ds, -, hc⟩ | ⟨e, p, -, -, hc⟩
  · rw [hc]
    exact ⟨h.pending, h.beans, fun _ hin => absurd hin List.not_mem_nil⟩
  · rw [hc]
    exact ⟨h.pending, h.beans, fun _ hin => absurd hin List.not_mem_nil⟩

theorem Stocked.refresh (h : Stocked P Q c) : Stocked P Q c.refresh.2 := by
  unfold Container.refresh
  split
  · have hfrozen := h.freeze
    revert hfrozen
    rcases c.freeze with ⟨_ | panic, frozen⟩
    · exact Stocked.complete
    · exact id
  · exact h

theorem Stocked.perform (h : Stocked P Q c) (op : Operation)
    (hP : ∀ bean, op = .register bean → P bean)
    (hQ : ∀ configuration, op = .configure configuration → Q configuration) :
    Stocked P Q (c.perform op).2 := by
  obtain ⟨hpending, hbeans, hconfigurations⟩ := id h
  cases op with
  | register bean =>
    show Stocked P Q (c.register bean).2
    unfold register
    split
    · refine ⟨fun b hb => ?_, hbeans, hconfigurations⟩
      rcases List.mem_append.mp hb with hb | hb
      · exact hpending b hb
      · exact hP b (by rw [List.mem_singleton.mp hb])
    · exact h
  | configure configuration =>
    show Stocked P Q (c.configure configuration).2
    unfold configure
    split
    · refine ⟨hpending, hbeans, fun d hd => ?_⟩
      rcases List.mem_append.mp hd with hd | hd
      · exact hconfigurations d hd
      · exact hQ d (by rw [List.mem_singleton.mp hd])
    · exact h
  | setProperty key setting =>
    show Stocked P Q (c.setProperty key setting).2
    unfold setProperty
    split <;> exact ⟨hpending, hbeans, hconfigurations⟩
  | load file content =>
    show Stocked P Q (c.load file content).2
    unfold load
    split
    · split <;> exact ⟨hpending, hbeans, hconfigurations⟩
    · exact h
  | refresh => exact h.refresh
  | find sel =>
    show Stocked P Q (c.find sel).2
    unfold find
    split <;> exact ⟨hpending, hbeans, hconfigurations⟩
  | close =>
    show Stocked P Q c.close.2
    unfold close
    split <;> exact ⟨hpending, hbeans, hconfigurations⟩
  | _ => exact ⟨hpending, hbeans, hconfigurations⟩

/-- What each operation keeps of a container, given what has been registered. -/
theorem performAll_keeps_stocked {X : Container → Prop}
    (h : ∀ c c', Undergoes c c' → Stocked P Q c → X c → X c') :
    ∀ (ops : List Operation) (c : Container), (∀ bean, .register bean ∈ ops → P bean) →
      (∀ configuration, .configure configuration ∈ ops → Q configuration) → Stocked P Q c → X c →
        Stocked P Q (c.performAll ops).2 ∧ X (c.performAll ops).2
  | [], _, _, _, hc, hx => ⟨hc, hx⟩
  | op :: ops, c, hP, hQ, hc, hx => by
    have hnext : Stocked P Q (c.perform op).2 := hc.perform op
      (fun bean he => hP bean (he ▸ List.mem_cons_self))
      fun configuration he => hQ configuration (he ▸ List.mem_cons_self)
    exact performAll_keeps_stocked h ops _ (fun bean hin => hP bean (List.mem_cons_of_mem op hin))
      (fun configuration hin => hQ configuration (List.mem_cons_of_mem op hin)) hnext
      (h c _ (perform_undergoes op c) hc hx)

theorem stocked_empty (injector : Injector) (compositions : Compositions) :
    Stocked P Q (empty injector compositions) :=
  ⟨nofun, nofun, nofun⟩

end

/-! ### Closing -/

section
variable {P : Progress → Prop} (hnote : ∀ {p : Progress} {e : Event}, e.IsAfterword → P p → P (p.note e))
include hnote

theorem tearDown_keeps {plan : Plan} {p : Progress} (hp : P p) (b : Nat) :
    P (plan.tearDown p b) := by
  unfold Plan.tearDown
  split
  · exact hp
  · split
    · split
      · exact hnote trivial (hnote trivial hp)
      · exact hnote trivial (hnote trivial hp)
    · exact hnote trivial hp

theorem tearDownAll_keeps {plan : Plan} : ∀ (ds : List Nat) {p : Progress}, P p →
    P (ds.foldl plan.tearDown p)
  | [], _, hp => hp
  | b :: ds, _, hp => tearDownAll_keeps ds (tearDown_keeps hnote hp b)

/-- A close only adds its notes. -/
theorem close_keeps {c : Container} (hr : c.phase = .refreshed) (hp : P c.progress) :
    P c.close.2.progress := by
  have hexited : P (c.progress.note .tasksExited) := hnote trivial hp
  unfold close
  rw [hr]
  exact hnote (e := .closed) trivial (tearDownAll_keeps hnote c.destroyers hexited)

end

/-- To close changes nothing in the registry. -/
theorem registry_close (c : Container) : c.close.2.registry = c.registry := by
  have htorn : ∀ (plan : Plan) (ds : List Nat) (p : Progress),
      (ds.foldl plan.tearDown p).registry = p.registry := by
    intro plan ds
    induction ds with
    | nil => exact fun _ => rfl
    | cons b ds ih =>
      intro p
      rw [List.foldl_cons, ih]
      unfold Plan.tearDown
      split
      · rfl
      · split
        · split <;> rfl
        · rfl
  unfold close
  cases c.phase with
  | refreshed => exact htorn _ _ _
  | _ => rfl

/-- What lookups keep of the registry and the phase, once the beans are frozen. -/
theorem performAll_keeps_registry {R : Phase → Registry → Prop} {c : Container}
    (hfind : ∀ (plan : Plan) (sel : Selector),
      Keeps (fun p : Progress => R .refreshing p.registry) (plan.find sel))
    (hn : c.phase ≠ .unrefreshed) (hr : R c.phase c.registry) (ops : List Operation) :
    let d := (c.performAll ops).2
    d.phase ≠ .unrefreshed ∧ d.beans = c.beans ∧ R d.phase d.registry := by
  refine performAll_keeps (P := fun d => d.phase ≠ .unrefreshed ∧ d.beans = c.beans ∧
    R d.phase d.registry) (fun d d' hu h => ?_) ops c ⟨hn, rfl, hr⟩
  obtain ⟨hd, hbeans, hr⟩ := h
  have halike : Alike d d' → d'.registry = d.registry →
      d'.phase ≠ .unrefreshed ∧ d'.beans = c.beans ∧ R d'.phase d'.registry := by
    intro ha hsame
    rw [ha.phase, ha.beans, hsame]
    exact ⟨hd, hbeans, hr⟩
  cases hu with
  | nothing alike progress => exact halike alike (congrArg Progress.registry progress)
  | noted alike e aside progress =>
    have hsame : d'.progress.registry = (d.progress.note e).registry := by rw [progress]
    exact halike alike hsame
  | refused new => exact absurd new hd
  | refreshed new => exact absurd new hd
  | found refreshing sel =>
    rw [refreshing] at hr
    have hfound := (hfind d.plan sel).after (s := d.progress) hr
    rw [← refreshing] at hfound
    exact ⟨hd, hbeans, hfound⟩
  | closed refreshed =>
    rw [phase_close, beans_close, registry_close]
    exact ⟨hd, hbeans, hr⟩

/-! ### What lasts from the refresh on -/

/-- The progress of beans that have been frozen, and are not resolved yet. -/
structure Frozen (plan : Plan) (p : Progress) : Prop where
  registry : p.registry = Registry.ofBeans plan.beans
  aside : ∀ e ∈ p.events, e.IsAside
  blank : ∀ m ∈ p.history, m.registry = .ofBeans []

/-- What a property has to bear so that every container has it from its refresh on. -/
structure Lasts (I : Plan → Progress → Prop) : Prop where
  congr : ∀ {p : Progress} (plan plan' : Plan), plan'.beans = plan.beans →
    plan'.compositions = plan.compositions → plan'.injector = plan.injector →
      plan'.properties = plan.properties → I plan p → I plan' p
  note : ∀ {plan : Plan} {p : Progress} {e : Event}, e.IsAfterword → I plan p → I plan (p.note e)
  start : ∀ {plan : Plan} {p : Progress}, Frozen plan p → I plan p
  refresh : ∀ {plan : Plan} {p : Progress}, Frozen plan p → ∀ configurations,
    After (plan.refresh configurations) (.start p) fun _ t => I plan t.progress
  find : ∀ {plan : Plan} {p : Progress} (sel : Selector), I plan p →
    After (plan.find sel) p fun _ q => I plan q

section
variable {c c' : Container} {I : Plan → Progress → Prop}

/-- Before the refresh the registry has no bean and nothing happens to the beans, and from
then on the progress has the property. -/
structure Has (I : Plan → Progress → Prop) (c : Container) : Prop where
  new : c.phase = .unrefreshed → ∀ e ∈ c.events, e.IsAside
  blank : c.phase = .unrefreshed →
    c.registry = .ofBeans [] ∧ ∀ m ∈ c.progress.history, m.registry = .ofBeans []
  since : c.phase ≠ .unrefreshed → I c.plan c.progress

theorem Has.nothing (h : Lasts I) (hc : Has I c) (ha : Alike c c') (hp : c'.progress = c.progress) :
    Has I c' where
  new := by
    rw [ha.phase, events, hp]
    exact hc.new
  blank := by
    rw [ha.phase, registry, hp]
    exact hc.blank
  since := by
    rw [ha.phase, hp]
    exact fun hn => h.congr c.plan c'.plan ha.beans ha.compositions ha.injector (ha.properties hn)
      (hc.since hn)

theorem Has.noted (h : Lasts I) (hc : Has I c) {e : Event} (he : e.IsAside) :
    Has I { c with progress := c.progress.note e } where
  new hn := List.forall_mem_cons.mpr ⟨he, hc.new hn⟩
  blank hn := ⟨(hc.blank hn).1, List.forall_mem_cons.mpr (hc.blank hn)⟩
  since hn := h.note he.isAfterword (hc.since hn)

/-- What is not an aside has happened since the refresh began. -/
theorem Has.begun (hc : Has I c) {m : Moment} (hm : m ∈ c.progress.history)
    (he : ¬ m.event.IsAside) : c.phase ≠ .unrefreshed :=
  fun hn => he (hc.new hn m.event (List.mem_map_of_mem hm))

theorem Has.frozen (hc : Has I c) (hn : c.phase = .unrefreshed) :
    Frozen c.freeze.2.plan c.freeze.2.progress := by
  have hnew := hc.new hn
  have hblank := (hc.blank hn).2
  rw [c.freeze_spec]
  exact ⟨rfl, hnew, hblank⟩

theorem Has.refused (h : Lasts I) (hc : Has I c) (hn : c.phase = .unrefreshed) :
    Has I c.freeze.2 := by
  have hphase : c.freeze.2.phase ≠ .unrefreshed := by
    rw [c.freeze_spec]
    exact nofun
  exact ⟨fun hp => absurd hp hphase, fun hp => absurd hp hphase, fun _ => h.start (hc.frozen hn)⟩

theorem Has.refreshed (h : Lasts I) (hc : Has I c) (hn : c.phase = .unrefreshed) :
    Has I c.freeze.2.complete.2 := by
  have hphase : c.freeze.2.phase = .refreshing := by rw [c.freeze_spec]
  have hcourse : I c.freeze.2.plan c.freeze.2.course.2.progress :=
    h.refresh (hc.frozen hn) c.freeze.2.configurations
  rcases complete_spec c.freeze.2 with ⟨ds, -, hd⟩ | ⟨e, p, -, hp, hd⟩
  · rw [hd]
    exact ⟨fun hp => (by cases hp), fun hp => (by cases hp),
      fun _ => h.note (e := .refreshed) trivial hcourse⟩
  · have hbegun : c.freeze.2.phase ≠ .unrefreshed := by
      rw [hphase]
      decide
    rw [hd]
    refine ⟨fun hp => absurd hp hbegun, fun hp => absurd hp hbegun, fun _ => ?_⟩
    show I c.freeze.2.plan p
    rcases hp with rfl | rfl
    · exact hcourse
    · exact h.note trivial hcourse

theorem Has.found (h : Lasts I) (hc : Has I c) (hp : c.phase = .refreshing) (sel : Selector) :
    Has I { c with progress := (outcome (c.plan.find sel) c.progress).2 } := by
  have hbegun : c.phase ≠ .unrefreshed := by
    rw [hp]
    decide
  exact ⟨fun hn => absurd hn hbegun, fun hn => absurd hn hbegun, fun hn => h.find sel (hc.since hn)⟩

theorem Has.closed (h : Lasts I) (hc : Has I c) (hr : c.phase = .refreshed) : Has I c.close.2 := by
  have hn : c.phase ≠ .unrefreshed := by rw [hr]; decide
  have hclosed : I c.plan c.close.2.progress := close_keeps h.note hr (hc.since hn)
  unfold close at hclosed ⊢
  rw [hr] at hclosed ⊢
  exact ⟨fun hp => (by cases hp), fun hp => (by cases hp), fun _ => h.congr c.plan _ rfl rfl rfl rfl hclosed⟩

theorem Has.undergoes (h : Lasts I) (hc : Has I c) (hu : Undergoes c c') : Has I c' := by
  cases hu with
  | nothing alike progress => exact hc.nothing h alike progress
  | noted alike e aside progress =>
    exact (hc.noted h aside).nothing h (alike.of_progress _) progress
  | refused new panic clash => exact hc.refused h new
  | refreshed new distinct => exact hc.refreshed h new
  | found refreshing sel => exact hc.found h refreshing sel
  | closed refreshed => exact hc.closed h refreshed

end

theorem lasts_trivial : Lasts fun _ _ => True :=
  ⟨fun _ _ _ _ _ _ _ => trivial, fun _ _ => trivial, fun _ => trivial, fun _ _ => trivial,
    fun _ _ => trivial⟩

/-- What lasts holds of every container that operations lead to. -/
theorem performAll_lasts {I : Plan → Progress → Prop} (h : Lasts I) (injector : Injector)
    (compositions : Compositions) (ops : List Operation) :
    Has I ((empty injector compositions).performAll ops).2 := by
  exact performAll_keeps (fun _ _ hu hc => hc.undergoes h hu) ops _
    ⟨fun _ e he => absurd he List.not_mem_nil,
      fun _ => ⟨rfl, fun m hm => absurd hm List.not_mem_nil⟩, fun hn => absurd rfl hn⟩

end Container
end Inversion
