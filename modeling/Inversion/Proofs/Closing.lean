/-
# From a refresh to a close

What a container with the standard injector has gone through is orderly, in each of
its phases (`Orderly`). Before the refresh only quiet events have happened. A refresh
that breaks off has called no constructor twice. After one that completes every bean
is deleted or wired, and the destroyers that have run, with those that are still to
run behind them, put every bean behind its dependents. Every operation keeps this
(`performAll_orderly`).
-/
import Inversion.Proofs.Container
import Inversion.Proofs.Refresh

namespace Inversion

open Relation

/-! ### Events after the wiring -/

/-- The beans whose destroyers have run, in that order. -/
def tornDown : List Event → List Nat
  | [] => []
  | .teardown b _ _ :: es => tornDown es ++ [b]
  | _ :: es => tornDown es

theorem Event.IsAside.isQuiet {e : Event} (h : e.IsAside) : e.IsQuiet := by
  cases e <;> trivial

theorem Event.IsAfterword.milestones {e : Event} (h : e.IsAfterword) (b : Nat) :
    e.milestones b = [] := by
  cases e <;> first | rfl | exact h.elim

theorem tornDown_of_early : ∀ {es : List Event}, (∀ e ∈ es, ¬ e.IsLate) → tornDown es = []
  | [], _ => rfl
  | e :: es, h => by
    have ih := tornDown_of_early fun e' he' => h e' (List.mem_cons_of_mem _ he')
    have he := h e List.mem_cons_self
    cases e <;> first | exact ih | exact absurd trivial he

namespace Progress

variable {beans : List Bean} {p : Progress} {e : Event}

theorem received_note (he : e.IsAfterword) : Received (p.note e).events = Received p.events := by
  funext x y
  refine propext ⟨fun h => ?_, List.mem_cons_of_mem _⟩
  have h : .received (.bean y) x ∈ e :: p.events := h
  rcases List.mem_cons.mp h with h | h
  · rw [← h] at he
    exact he.elim
  · exact h

theorem Complete.note (h : p.Complete beans) (he : e.IsAfterword) : (p.note e).Complete beans := by
  have hms : ∀ b, milestones b (p.note e).events = milestones b p.events := by
    intro b
    show milestones b p.events ++ e.milestones b = _
    rw [he.milestones, List.append_nil]
  refine ⟨h.all, fun b bean hb hw => ?_, fun b hd => ?_, h.held, fun b cause hb => ?_, ?_⟩
  · exact (hms b).trans (h.wired b bean hb hw)
  · exact (hms b).trans (h.deleted b hd)
  · have hb : .creationEnded b (some cause) ∈ e :: p.events := hb
    rcases List.mem_cons.mp hb with hb | hb
    · rw [← hb] at he
      exact he
    · exact h.unfailed b cause hb
  · refine @InTurn.append beans [e] _ (fun e' he' y x hx => ?_) h.inTurn
    rw [List.mem_singleton.mp he'] at hx
    rw [hx] at he
    exact he

/-! ### Tearing down -/

/-- A bean with an instance and a destroyer is torn down, whether its destroyer
fails or not. -/
theorem tearDown_spec {plan : Plan} {b : Nat} (hb : destroys plan.beans b)
    (hheld : (p.registry.held b).isSome) :
    ∃ e e', e.IsAfterword ∧ e'.IsAfterword ∧ tornDown [e'] = [] ∧ tornDown [e] = [b] ∧
      plan.tearDown p b = (p.note e).note e' := by
  obtain ⟨bean, hbean, hhook⟩ : ∃ bean, plan.beans[b]? = some bean ∧ bean.destroy.isSome := by
    unfold destroys at hb
    rwa [Option.any_eq_true] at hb
  obtain ⟨hook, hhook⟩ := Option.isSome_iff_exists.mp hhook
  obtain ⟨i, hi⟩ := Option.isSome_iff_exists.mp hheld
  refine ⟨.teardown b bean.type i.briefText,
    hook.failure.elim (.destroyed bean.id) (.destroyFailed bean.id), trivial, ?_, ?_, rfl, ?_⟩
  · cases hook.failure <;> trivial
  · cases hook.failure <;> rfl
  · unfold Plan.tearDown
    simp only [hbean, hhook, hi]
    cases hook.failure <;> rfl

theorem tornDown_append : ∀ (es fs : List Event), tornDown (es ++ fs) = tornDown fs ++ tornDown es
  | [], fs => (List.append_nil _).symm
  | e :: es, fs => by
    have ih := tornDown_append es fs
    cases e with
    | teardown b t brief =>
      show tornDown (es ++ fs) ++ [b] = tornDown fs ++ (tornDown es ++ [b])
      rw [ih, List.append_assoc]
    | _ => exact ih

/-- A close runs the destroyers that are left, in their order. -/
theorem tearDownAll_spec {plan : Plan} : ∀ {ds : List Nat} {p : Progress}, p.Complete plan.beans →
    (∀ b ∈ ds, p.registry.status b = .wired ∧ destroys plan.beans b) →
    (ds.foldl plan.tearDown p).Complete plan.beans ∧
      (ds.foldl plan.tearDown p).registry = p.registry ∧
      Received (ds.foldl plan.tearDown p).events = Received p.events ∧
      tornDown (ds.foldl plan.tearDown p).events = tornDown p.events ++ ds
  | [], p, hp, _ => ⟨hp, rfl, rfl, (List.append_nil _).symm⟩
  | b :: ds, p, hp, hds => by
    obtain ⟨hw, hd⟩ := hds b List.mem_cons_self
    obtain ⟨e, e', he, he', ht', ht, hb⟩ := tearDown_spec hd (hp.held b hw)
    rw [List.foldl_cons, hb]
    obtain ⟨hc, hr, hrec, htorn⟩ := tearDownAll_spec ((hp.note he).note he')
      fun c hc => hds c (List.mem_cons_of_mem _ hc)
    refine ⟨hc, hr, ?_, ?_⟩
    · rw [hrec, received_note he', received_note he]
    · rw [htorn, show ((p.note e).note e').events = [e'] ++ ([e] ++ p.events) from rfl,
        tornDown_append, tornDown_append, ht, ht', List.append_nil, List.append_assoc,
        List.singleton_append]

end Progress

theorem Dismantles.note {beans : List Bean} {p : Progress} {e : Event} {ds : List Nat}
    (h : Dismantles beans p ds) (he : e.IsAfterword) : Dismantles beans (p.note e) ds :=
  ⟨h.nodup, h.mem, by rw [Progress.received_note he]; exact h.behind⟩

/-! ### Containers -/

namespace Container

section
variable {plan : Plan} {p : Progress}

theorem Frozen.length (h : Frozen plan p) : p.registry.marks.length = plan.beans.length := by
  rw [h.registry]
  exact List.length_map ..

theorem Frozen.idle (h : Frozen plan p) : p.Idle := by
  refine ⟨fun b => ?_, fun e he => (h.aside e he).isQuiet⟩
  rw [h.registry, Registry.status_ofBeans]
  split <;> decide

end

variable {c c' : Container}

/-- What a container with the standard injector has gone through, by its phase. -/
structure Orderly (c : Container) : Prop where
  injector : c.injector = .standard
  new : c.phase = .unrefreshed → c.beans = [] ∧ ∀ e ∈ c.events, e.IsQuiet
  begins : ∀ b bean, c.beans[b]? = some bean → milestones b c.events <+: bean.milestones
  broken : c.phase = .refreshing → .beansWired ∉ c.events
  complete : c.phase = .refreshed → c.progress.Complete c.beans
  torn : c.phase = .refreshed →
    Dismantles c.beans c.progress (tornDown c.events ++ c.destroyers)

theorem orderly_empty (compositions : Compositions) : Orderly (.empty .standard compositions) where
  injector := rfl
  new _ := ⟨rfl, fun e he => absurd he List.not_mem_nil⟩
  begins b bean hb := by cases hb
  broken h := by cases h
  complete h := by cases h
  torn h := by cases h

theorem Orderly.nothing (h : Orderly c) (ha : Alike c c') (hp : c'.progress = c.progress) :
    Orderly c' where
  injector := ha.injector.trans h.injector
  new := by
    rw [ha.phase, ha.beans, events, hp]
    exact h.new
  begins := by
    rw [ha.beans, events, hp]
    exact h.begins
  broken := by
    rw [ha.phase, events, hp]
    exact h.broken
  complete := by
    rw [ha.phase, ha.beans, hp]
    exact h.complete
  torn := by
    rw [ha.phase, ha.beans, events, hp, ha.destroyers]
    exact h.torn

theorem Orderly.noted (h : Orderly c) (ha : Alike c c') {e : Event} (he : e.IsAside)
    (hp : c'.progress = c.progress.note e) : Orderly c' := by
  have hnoted : Orderly { c with progress := c.progress.note e } := {
    injector := h.injector
    new := fun hn => ⟨(h.new hn).1, List.forall_mem_cons.mpr ⟨he.isQuiet, (h.new hn).2⟩⟩
    begins := fun b bean hb => by
      show milestones b c.events ++ e.milestones b <+: _
      rw [he.isQuiet.milestones, List.append_nil]
      exact h.begins b bean hb
    broken := fun hb hin => by
      have hin : .beansWired ∈ e :: c.events := hin
      rcases List.mem_cons.mp hin with hin | hin
      · rw [← hin] at he
        exact he
      · exact h.broken hb hin
    complete := fun hr => (h.complete hr).note he.isAfterword
    torn := fun hr => by
      have ht : tornDown (c.progress.note e).events = tornDown c.events := by
        cases e <;> first | rfl | exact he.elim
      show Dismantles c.beans (c.progress.note e) (tornDown (c.progress.note e).events ++ _)
      rw [ht]
      exact (h.torn hr).note he.isAfterword }
  exact hnoted.nothing (ha.of_progress _) hp

/-- A frozen container is ready for its refresh. -/
theorem Orderly.freeze (h : Orderly c) (hn : c.phase = .unrefreshed) :
    c.freeze.2.injector = .standard ∧ c.freeze.2.phase = .refreshing ∧
      c.freeze.2.progress.Idle ∧
      c.freeze.2.progress.registry.marks.length = c.freeze.2.beans.length := by
  have hf := c.freeze_spec
  set beans := c.freeze.2.beans
  rw [hf]
  refine ⟨h.injector, rfl, ⟨fun b => ?_, (h.new hn).2⟩, List.length_map ..⟩
  rw [Registry.status_ofBeans]
  split <;> decide

theorem Orderly.refused (h : Orderly c) (hn : c.phase = .unrefreshed) : Orderly c.freeze.2 := by
  obtain ⟨hinjector, hphase, hidle, -⟩ := h.freeze hn
  refine ⟨hinjector, fun hp => ?_, fun b bean hb => ?_, fun _ hin => hidle.2 _ hin, fun hp => ?_,
    fun hp => ?_⟩
  · rw [hphase] at hp
    cases hp
  · rw [events, milestones_of_quiet hidle.2]
    exact List.nil_prefix
  · rw [hphase] at hp
    cases hp
  · rw [hphase] at hp
    cases hp

theorem Orderly.refreshed (h : Orderly c) (hn : c.phase = .unrefreshed) :
    Orderly c.freeze.2.complete.2 := by
  obtain ⟨hinjector, hphase, hidle, hlen⟩ := h.freeze hn
  have hends : c.freeze.2.plan.Ends c.freeze.2.course.1 c.freeze.2.course.2 :=
    Plan.refresh_ends hinjector c.freeze.2.configurations hidle hlen
  rcases complete_spec c.freeze.2 with ⟨ds, hds, hc⟩ | ⟨e, p, he, hp, hc⟩
  · rcases hends.finished with ⟨ds', es, hds', hcomplete, hdismantles, -, hes, hearly⟩ | ⟨e, he, -⟩
    · rw [hds] at hds'
      cases hds'
      have htorn : tornDown c.freeze.2.course.2.events = [] := by
        have hnone : tornDown es = [] := tornDown_of_early hearly
        rw [hes]
        exact hnone
      rw [hc]
      refine ⟨hinjector, fun hp => (by cases hp), fun b bean hb => ?_, fun hp => (by cases hp),
        fun _ => hcomplete.note (by trivial), fun _ => ?_⟩
      · show milestones b c.freeze.2.course.2.events ++ [] <+: _
        rw [List.append_nil]
        exact hends.begins hb
      · show Dismantles c.freeze.2.beans (c.freeze.2.course.2.progress.note .refreshed)
          (tornDown c.freeze.2.course.2.events ++ ds)
        rw [htorn]
        exact hdismantles.note (by trivial)
    · rw [hds] at he
      cases he
  · rcases hends.finished with ⟨ds', es, hds', -⟩ | ⟨e', -, hearly⟩
    · rw [he] at hds'
      cases hds'
    · have hevents : p.events = c.freeze.2.course.2.events ∨
          p.events = .refreshFailed e.message :: c.freeze.2.course.2.events :=
        hp.imp (fun h => by rw [h]) (fun h => by rw [h]; rfl)
      rw [hc]
      refine ⟨hinjector, fun hp => ?_, fun b bean hb => ?_, fun _ hin => ?_, fun hp => ?_,
        fun hp => ?_⟩
      · rw [show c.freeze.2.phase = .unrefreshed from hp] at hphase
        cases hphase
      · have hms : milestones b p.events = milestones b c.freeze.2.course.2.events := by
          rcases hevents with h | h <;> rw [h]
          exact List.append_nil _
        show milestones b p.events <+: _
        rw [hms]
        exact hends.begins hb
      · have hin : .beansWired ∈ c.freeze.2.course.2.events := by
          have hin : .beansWired ∈ p.events := hin
          rcases hevents with h | h <;> rw [h] at hin
          · exact hin
          · simpa using hin
        exact hearly _ hin trivial
      · rw [show c.freeze.2.phase = .refreshed from hp] at hphase
        cases hphase
      · rw [show c.freeze.2.phase = .refreshed from hp] at hphase
        cases hphase

/-- Lookups after a refresh that broke off resolve beans, and create none. -/
theorem Orderly.found (h : Orderly c) (hp : c.phase = .refreshing) (sel : Selector) :
    Orderly { c with progress := (outcome (c.plan.find sel) c.progress).2 } := by
  have hpersists : c.plan.Persists fun p =>
      (∀ b bean, c.beans[b]? = some bean → milestones b p.events <+: bean.milestones) ∧
        .beansWired ∉ p.events := by
    refine Plan.persists_events (P := fun es => (∀ b bean, c.beans[b]? = some bean →
      milestones b es <+: bean.milestones) ∧ .beansWired ∉ es) fun e es he ⟨hb, hw⟩ => ?_
    refine ⟨fun b bean hbean => ?_, fun hin => ?_⟩
    · show milestones b es ++ e.milestones b <+: _
      rw [he.isQuiet.milestones, List.append_nil]
      exact hb b bean hbean
    · rcases List.mem_cons.mp hin with hin | hin
      · rw [← hin] at he
        exact he
      · exact hw hin
  have hfound := (Plan.find_keeps hpersists sel).after (s := c.progress) ⟨h.begins, h.broken hp⟩
  refine ⟨h.injector, fun hn => ?_, hfound.1, fun _ => hfound.2, fun hr => ?_, fun hr => ?_⟩
  · rw [show c.phase = .unrefreshed from hn] at hp
    cases hp
  · rw [show c.phase = .refreshed from hr] at hp
    cases hp
  · rw [show c.phase = .refreshed from hr] at hp
    cases hp

/-- A close runs all destroyers that are left. -/
theorem close_spec (h : Orderly c) (hr : c.phase = .refreshed) :
    c.close.2.injector = c.injector ∧ c.close.2.phase = .refreshed ∧ c.close.2.beans = c.beans ∧
      c.close.2.destroyers = [] ∧ c.close.2.progress.Complete c.beans ∧
      c.close.2.registry = c.registry ∧ Received c.close.2.events = Received c.events ∧
      tornDown c.close.2.events = tornDown c.events ++ c.destroyers := by
  have hds : ∀ b ∈ c.destroyers,
      c.progress.registry.status b = .wired ∧ destroys c.beans b := fun b hb =>
    ((h.torn hr).mem b).mp (List.mem_append_right _ hb)
  have hexited : (c.progress.note .tasksExited).Complete c.beans := (h.complete hr).note (by trivial)
  obtain ⟨hc, hreg, hrec, htorn⟩ :=
    @Progress.tearDownAll_spec { c with supervisor := c.supervisor.shutDown }.plan c.destroyers _
      hexited hds
  unfold close
  rw [hr]
  refine ⟨rfl, rfl, rfl, rfl, hc.note (by trivial), hreg, ?_, htorn⟩
  show Received (Progress.note .closed _).events = _
  rw [Progress.received_note (by trivial)]
  exact hrec.trans (Progress.received_note (by trivial))

theorem Orderly.closed (h : Orderly c) (hr : c.phase = .refreshed) : Orderly c.close.2 := by
  obtain ⟨hinjector, hphase, hbeans, hds, hc, hreg, hrec, htorn⟩ := close_spec h hr
  refine ⟨hinjector.trans h.injector, fun hp => ?_, fun b bean hb => ?_, fun hp => ?_,
    fun _ => hbeans ▸ hc, fun _ => ?_⟩
  · rw [hphase] at hp
    cases hp
  · rw [hbeans] at hb
    by_cases hd : c.close.2.progress.registry.status b = .deleted
    · rw [events, hc.deleted b hd]
      exact List.nil_prefix
    · rw [events, hc.wired b bean hb (hc.all b hd)]
  · rw [hphase] at hp
    cases hp
  · rw [htorn, hds, hbeans, List.append_nil]
    have hd := h.torn hr
    refine ⟨hd.nodup, fun b => ?_, ?_⟩
    · rw [show c.close.2.progress.registry = c.progress.registry from hreg]
      exact hd.mem b
    · rw [hrec]
      exact hd.behind

theorem Orderly.undergoes (h : Orderly c) (hu : Undergoes c c') : Orderly c' := by
  cases hu with
  | nothing alike progress => exact h.nothing alike progress
  | noted alike e aside progress => exact h.noted alike aside progress
  | refused new panic clash => exact h.refused new
  | refreshed new distinct => exact h.refreshed new
  | found refreshing sel => exact h.found refreshing sel
  | closed refreshed => exact h.closed refreshed

/-- Whatever operations lead to is orderly. -/
theorem performAll_orderly (compositions : Compositions) (ops : List Operation) :
    Orderly ((empty .standard compositions).performAll ops).2 :=
  performAll_keeps (fun _ _ hu h => h.undergoes hu) ops _ (orderly_empty compositions)

/-- Once all beans are wired their destroyers have an order, and by a close every
destroyer runs once, behind those of the beans that received its bean, directly or
through others. -/
theorem close_runs_dependents_first (compositions : Compositions) (ops : List Operation) :
    let c := ((empty .standard compositions).performAll ops).2
    (.beansWired ∈ c.events → c.phase = .refreshed) ∧
      (c.phase = .refreshed →
        (tornDown c.close.2.events).Nodup ∧
        (∀ b, b ∈ tornDown c.close.2.events ↔ c.registry.status b = .wired ∧ destroys c.beans b) ∧
        ∀ x y, destroys c.beans x → destroys c.beans y → TransGen (Received c.events) x y →
          [y, x].Sublist (tornDown c.close.2.events)) := by
  intro c
  have h : Orderly c := performAll_orderly compositions ops
  refine ⟨fun hw => ?_, fun hr => ?_⟩
  · cases hp : c.phase with
    | unrefreshed => exact ((h.new hp).2 _ hw).elim
    | refreshing => exact absurd hw (h.broken hp)
    | refreshed => rfl
  · obtain ⟨-, -, -, -, -, -, -, htorn⟩ := close_spec h hr
    have hd := h.torn hr
    rw [htorn]
    exact ⟨hd.nodup, hd.mem, hd.behind⟩

/-- A pool, a repository that receives the pool, and a handler that receives the
repository, which has no destroyer. -/
def chain : List Operation :=
  let bean (t : TypeName) (n : Nat) (args : List Arg) (destroy : Option Hook) : Bean :=
    { Bean.plain t (.main n) (.constructor ⟨args, .part, t.name, none⟩) with destroy }
  [.register (bean (.of "app::Pool") 1 [] (some ⟨none⟩)),
    .register (bean (.of "app::Repository") 2 [.one (.of "app::Pool")] none),
    .register (bean (.of "app::Handler") 3 [.one (.of "app::Repository")] (some ⟨none⟩)), .refresh]

theorem close_runs_dependents_first_of_chain :
    let c := ((empty .standard ⟨[]⟩).performAll chain).2
    c.phase = .refreshed ∧ [2, 0].Sublist (tornDown c.close.2.events) :=
  ⟨by decide +kernel,
    ((close_runs_dependents_first ⟨[]⟩ chain).2 (by decide +kernel)).2.2 0 2 (by decide +kernel)
      (by decide +kernel) (.tail (b := 1) (.single (by decide +kernel)) (by decide +kernel))⟩

end Container
end Inversion
