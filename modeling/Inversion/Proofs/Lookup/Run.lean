/-
# The lookups of a whole run

Resolutions come first, and if they succeed they leave every bean settled or deleted.
What follows only looks up, and creates beans that are settled (`endures_behind`), so
with any injector a refresh is faithful from its start to its end
(`refresh_faithful`). Lookups after a refresh that broke off are, too, although beans
may be left that are being resolved. So for every container that operations lead to,
each lookup of its history is exact, and what it found stays
(`lookups_exact`).
-/
import Inversion.Proofs.Lookup.Nesting
import Inversion.Proofs.Wiring.Creation
import Inversion.Proofs.Container
import Inversion.Proofs.Refresh

namespace Inversion

theorem Event.IsReport.not_isLookup {e : Event} (h : e.IsReport) : ¬ e.IsLookup := by
  cases e <;> first | exact id | exact fun _ => h

namespace Plan

variable {plan : Plan} {r : Registry}

/-- A faithful progress that comes after the registry `r`. -/
def Behind (plan : Plan) (r : Registry) (p : Progress) : Prop :=
  Faithful plan p ∧ r.Later p.registry

theorem Behind.note {p : Progress} (h : plan.Behind r p) {e : Event} (he : ¬ e.IsLookup) :
    plan.Behind r (p.note e) :=
  ⟨h.1.note he, h.2⟩

/-- What is not settled in a decided registry never will be. -/
theorem Behind.settled {p : Progress} (h : plan.Behind r p) (hr : r.Decided) {b : Nat}
    (hb : (p.registry.status b).isSettled) : (r.status b).isSettled :=
  (hr b).resolve_right fun hd => Status.ne_deleted_of_isSettled hb (h.2.deleted b hd)

section
variable (hprop : ∀ bean ∈ plan.beans, Condition.AllPropagate bean.conditions)
include hprop

theorem find_behind (sel : Selector) {p : Progress} (h : plan.Behind r p) :
    After (plan.find sel) p fun x q => plan.Behind r q ∧
      ∀ found, x = .ok found → ∀ b ∈ found, (q.registry.status b).isSettled :=
  (find_faithful hprop h.1 sel).mono fun _ _ ⟨hq, hl, hok⟩ =>
    ⟨⟨hq, h.2.trans hl⟩, fun found hf => (hok found hf).2⟩

/-- Wirings with any injector are faithful once every bean is decided. -/
theorem endures_behind (hr : r.Decided) :
    plan.Endures (fun a => plan.Behind r a.progress) fun b => (r.status b).isSettled where
  progress a a' h ha := by rwa [h]
  note a e he ha := ha.note he.isReport.not_isLookup
  handed a b _ ha := ha.note id
  received a asker b _ ha := ha.note id
  count a n ha := ⟨⟨ha.1.sound, ha.1.exact, ha.1.current, ha.1.chained⟩, ha.2⟩
  begin a b hb ha := by
    have hs := (ha.2.settled b hb).1
    exact ⟨ha.1.setSettled hs rfl, ha.2.trans (.of_settled hs rfl)⟩
  hold a b i hb ha := by
    have hs : ((a.progress.registry.setHeld b i).status b).isSettled := by
      rw [Registry.status_setHeld]
      exact (ha.2.settled b hb).1
    have hheld : a.progress.registry.Later (a.progress.registry.setHeld b i) :=
      .of_same (fun c => Registry.status_setHeld _ b c i) fun c => Registry.exports_setHeld _ b c i
    exact ⟨(ha.1.setHeld b i).setSettled hs rfl, (ha.2.trans hheld).trans (.of_settled hs rfl)⟩
  find sel a ha := by
    rw [after_ofResolving]
    refine (find_behind hprop sel ha).mono fun x q ⟨hq, hok⟩ => ⟨hq, fun bs hbs b hb => ?_⟩
    cases x with
    | error e => cases hbs
    | ok found =>
      cases hbs
      exact hq.settled hr (hok bs rfl b hb)
  reach a b hb ha := ha.settled hr hb

/-! ### Refreshes -/

/-- A refresh from the start is faithful, however it ends. -/
theorem refresh_faithful {p : Progress} (h : Faithful plan p)
    (hnone : ∀ b, p.registry.status b ≠ .resolving) (configurations : List Configuration) :
    After (plan.refresh configurations) (.start p) fun _ t => Faithful plan t.progress := by
  refine refresh_keeps configurations ((resolveAll_faithful hprop h hnone).mono
    fun x q ⟨hq, hdecided⟩ => ?_)
  cases x with
  | error cause => exact hq
  | ok _ =>
    have hd := hdecided rfl
    refine ⟨_, (endures_behind hprop hd).outlasts (fun a e he ha => ha.note he.not_isLookup)
      fun a ha b hb => .inl ?_, ⟨hq.note id, .refl _⟩, fun a ha => ha.1⟩
    exact (hd b).resolve_right fun hdel => Registry.mem_active.mp hb (ha.2.deleted b hdel)

end

end Plan

/-- Of the plan only the beans and the compositions matter. -/
theorem Faithful.congr {plan plan' : Plan} {p : Progress} (h : Faithful plan p)
    (hb : plan'.beans = plan.beans) (hc : plan'.compositions = plan.compositions) :
    Faithful plan' p := by
  obtain ⟨beans, properties, compositions, injector, cancelled⟩ := plan
  obtain ⟨beans', properties', compositions', injector', cancelled'⟩ := plan'
  cases hb
  cases hc
  exact ⟨⟨h.sound.length, h.sound.exports⟩, h.exact, h.current, h.chained⟩

theorem Event.IsAfterword.not_isLookup {e : Event} (h : e.IsAfterword) : ¬ e.IsLookup := by
  cases e <;> first | exact id | exact fun _ => h

/-- A frozen container is faithful, as nothing is looked up yet. -/
theorem Container.Frozen.faithful {plan : Plan} {p : Progress} (h : Container.Frozen plan p) :
    Faithful plan p :=
  .of_new h.registry fun m hm => (h.aside m.event (List.mem_map_of_mem hm)).isAfterword.not_isLookup

theorem Container.Frozen.status_ne {plan : Plan} {p : Progress} (h : Container.Frozen plan p)
    {s : Status} (hf : s ≠ .fresh) (hd : s ≠ .deleted) (b : Nat) : p.registry.status b ≠ s := by
  rw [h.registry, Registry.status_ofBeans]
  split
  · exact hf.symm
  · exact hd.symm

/-! ### Containers -/

namespace Container

variable {c : Container}

/-- The progress is faithful if no condition goes on after a failed lookup to an answer. -/
theorem lasts_faithful : Lasts fun plan p =>
    (∀ bean ∈ plan.beans, Condition.AllPropagate bean.conditions) → Faithful plan p where
  congr _ _ hb hc _ _ h hprop := (h (hb ▸ hprop)).congr hb hc
  note he h hprop := (h hprop).note he.not_isLookup
  start h _ := h.faithful
  refresh h configurations hprop :=
    Plan.refresh_faithful hprop h.faithful (h.status_ne (by decide) (by decide)) configurations
  find sel h hprop := (Plan.find_faithful hprop (h hprop) sel).1

/-- Before the refresh nothing is looked up, and from then on the progress is faithful,
if no condition goes on after a failed lookup to an answer. -/
structure Answers (c : Container) : Prop where
  new : c.phase = .unrefreshed → ∀ m ∈ c.progress.history, ¬ m.event.IsLookup
  faithful : c.phase ≠ .unrefreshed →
    (∀ bean ∈ c.beans, Condition.AllPropagate bean.conditions) → Faithful c.plan c.progress

theorem performAll_answers (injector : Injector) (compositions : Compositions)
    (ops : List Operation) : Answers ((empty injector compositions).performAll ops).2 := by
  have h := performAll_lasts lasts_faithful injector compositions ops
  refine ⟨fun hn m hm => ?_, h.since⟩
  exact (h.new hn m.event (List.mem_map_of_mem hm)).isAfterword.not_isLookup

/-- In every container, whatever its injector, each lookup during the refresh, or after
one that broke off, has found exactly the beans that were not being resolved when it
began, are not deleted and match with their final exports. They are resolved, and in
every later registry they are there and match. -/
theorem lookups_exact (injector : Injector) (compositions : Compositions) (ops : List Operation) :
    let c := ((empty injector compositions).performAll ops).2
    (∀ bean ∈ c.beans, Condition.AllPropagate bean.conditions) →
      (∀ later m earlier sel away found, c.progress.history = later ++ m :: earlier →
        m.event = .lookedUp sel away found →
          found = (List.range c.beans.length).filter (fun b =>
            b ∉ away ∧ m.registry.status b ≠ .deleted ∧ c.plan.answersTo sel b) ∧
          ∀ b ∈ found, (m.registry.status b).isSettled ∧
            ∀ r, (r = c.registry ∨ ∃ m' ∈ later, r = m'.registry) →
              r.status b ≠ .deleted ∧ c.plan.selects r sel b) ∧
      (c.phase = .refreshing → ∀ sel found, (c.find sel).1 = .ok (.ok found) →
        found = (List.range c.beans.length).filter (fun b =>
          c.registry.status b ≠ .resolving ∧ (c.find sel).2.registry.status b ≠ .deleted ∧
            c.plan.answersTo sel b) ∧
        ∀ b ∈ found, ((c.find sel).2.registry.status b).isSettled) ∧
      ∀ bean exports (sel : Selector), c.plan.exportsOf bean = .ok exports →
        sel.matchesBean bean exports → sel.mayMatch bean := by
  intro c hprop
  have h : Answers c := performAll_answers injector compositions ops
  refine ⟨fun later m earlier sel away found hp hm => ?_, fun hr sel found hfound => ?_,
    fun _ _ _ he hm => Plan.mayMatch_of_matches he hm⟩
  · have hn : c.phase ≠ .unrefreshed := by
      intro hn
      have hlook := h.new hn m (by rw [hp]; simp)
      rw [hm] at hlook
      exact hlook trivial
    have hf := h.faithful hn hprop
    obtain ⟨hexact, hsettled⟩ := hf.exact m (by rw [hp]; simp) sel away found hm
    refine ⟨hexact, fun b hb => ⟨hsettled b hb, fun r hr => ?_⟩⟩
    obtain ⟨hs, hsel⟩ := hf.stays hp hm hb hr
    exact ⟨Status.ne_deleted_of_isSettled hs, hsel⟩
  · have hf := h.faithful (by rw [hr]; decide) hprop
    obtain ⟨hq, -, hok⟩ := Plan.find_faithful hprop hf sel
    have hspec : c.find sel = (.ok (outcome (c.plan.find sel) c.progress).1,
        { c with progress := (outcome (c.plan.find sel) c.progress).2 }) := by
      unfold find
      rw [hr]
      rfl
    rw [hspec] at hfound ⊢
    obtain ⟨⟨earlier, hhead⟩, hsettled⟩ := hok found (Except.ok.inj hfound)
    obtain ⟨hexact, -⟩ := hq.exact _ (by rw [hhead]; exact List.mem_cons_self) _ _ _ rfl
    refine ⟨hexact.trans (List.filter_congr fun b _ => ?_), hsettled⟩
    simp only [Registry.mem_resolving]
    rfl

/-- A pool that cannot be built, and a handler for the case that there is a pool. -/
def unbuildable : List Bean :=
  [Bean.plain (.of "app::Pool") (.main 1) (.constructor ⟨[], .part, "pool", some "closed"⟩),
    { Bean.plain (.of "app::Handler") (.main 2) (.constructor ⟨[], .part, "handler", none⟩) with
      conditions := [.beans .some (.type (.of "app::Pool"))] }]

theorem lookups_exact_of_unbuildable :
    let c := ((empty .standard ⟨[]⟩).performAll (unbuildable.map .register ++ [.refresh])).2
    c.phase = .refreshing ∧ ((c.find (.type (.of "app::Pool"))).2.registry.status 0).isSettled := by
  refine ⟨by decide +kernel, ?_⟩
  have hplain : ((empty .standard ⟨[]⟩).performAll
      (unbuildable.map .register ++ [.refresh])).2.beans.all
        fun bean => Condition.arePlain bean.conditions := by decide +kernel
  have hexact := lookups_exact .standard ⟨[]⟩ (unbuildable.map .register ++ [.refresh])
    fun bean hbean => Condition.allPropagate_of_arePlain _ (List.all_eq_true.mp hplain bean hbean)
  exact (hexact.2.1 (by decide +kernel) (.type (.of "app::Pool")) [0] (by decide +kernel)).2 0
    List.mem_cons_self

end Container
end Inversion
