/-
# Every destroyer once

No destroyer runs before the first close, and after it none is left (`Drained`). By then all
beans with a destroyer are listed once, so the first close runs each of them exactly once, and
a later one runs none (`close_destroys_once`).

This holds of the standard injector, and of those that keep destroyers again: with
these, operations answer the same and do the same (`performAll_withInjector`).
-/
import Inversion.Proofs.Closing
import Inversion.Proofs.Wiring.Redundancy

namespace Inversion

def Event.isClosed : Event → Bool
  | .closed => true
  | _ => false

instance (es : List Event) : Decidable (.closed ∈ es) :=
  decidable_of_iff (es.any Event.isClosed) <| by
    rw [List.any_eq_true]
    constructor
    · rintro ⟨e, he, h⟩
      cases e <;> cases h
      exact he
    · exact fun h => ⟨_, h, rfl⟩

namespace Container

variable {c c' : Container} {injector : Injector}

/-! ### Other injectors -/

abbrev withInjector (c : Container) (injector : Injector) : Container :=
  { c with injector }

theorem course_withInjector (h : injector.KeepsAgain) (hc : c.injector = .standard)
    (hp : c.progress.Idle) : (c.withInjector injector).course = c.course := by
  have hrefresh := @Plan.refresh_usual (c.withInjector injector).plan h c.configurations _ hp
  have hplan : (c.withInjector injector).plan.usual = c.plan := by
    unfold plan
    rw [hc]
  rwa [hplan] at hrefresh

theorem complete_withInjector (h : (c.withInjector injector).course = c.course) :
    (c.withInjector injector).complete = c.complete.map id (·.withInjector injector) := by
  unfold complete
  rw [show ((c.withInjector injector).plan.refresh c.configurations).run.run (.start c.progress) =
      c.course from h,
    show (c.plan.refresh c.configurations).run.run (.start c.progress) = c.course from rfl]
  rcases c.course with ⟨r, a⟩
  cases r with
  | ok ds => rfl
  | error e =>
    cases e with
    | resolve cause =>
      cases hf : cause.isFatal <;> simp only [hf] <;> rfl
    | _ => rfl

theorem refresh_withInjector (h : injector.KeepsAgain) (hc : Orderly c) :
    (c.withInjector injector).refresh = c.refresh.map id (·.withInjector injector) := by
  cases hp : c.phase with
  | unrefreshed =>
    obtain ⟨hinjector, -, hidle, -⟩ := hc.freeze hp
    have hcomplete := complete_withInjector (course_withInjector h hinjector hidle)
    have hfreeze : (c.withInjector injector).freeze =
        c.freeze.map id (·.withInjector injector) := rfl
    unfold refresh
    rw [hp, hfreeze]
    rcases hf : c.freeze with ⟨clash, frozen⟩
    rw [hf] at hcomplete
    cases clash with
    | some panic => rfl
    | none => exact hcomplete
  | _ =>
    unfold refresh
    rw [hp]
    rfl

theorem close_withInjector :
    (c.withInjector injector).close = c.close.map id (·.withInjector injector) := by
  unfold close
  cases c.phase <;> rfl

/-- An operation does the same with an injector that keeps destroyers again. -/
theorem perform_withInjector (h : injector.KeepsAgain) (hc : Orderly c) (op : Operation) :
    (c.withInjector injector).perform op = (c.perform op).map id (·.withInjector injector) := by
  cases op with
  | refresh =>
    unfold perform
    rw [refresh_withInjector h hc]
    rfl
  | find sel =>
    have hfind : (c.plan.withInjector injector).find sel = c.plan.find sel :=
      Plan.find_withInjector sel
    unfold perform find
    rw [show (c.withInjector injector).plan = c.plan.withInjector injector from rfl]
    dsimp only
    rw [hfind]
    cases c.phase <;> rfl
  | load file content =>
    unfold perform load
    dsimp only
    cases c.phase with
    | unrefreshed => rcases c.properties.loadFile file content with ⟨_ | _, _⟩ <;> rfl
    | _ => rfl
  | get t => rfl
  | getNamed t name => rfl
  | getAll t => rfl
  | spawn script => rfl
  | cancel => rfl
  | register bean =>
    unfold perform register
    cases c.phase <;> rfl
  | configure configuration =>
    unfold perform configure
    cases c.phase <;> rfl
  | setProperty key setting =>
    unfold perform setProperty
    cases c.phase <;> rfl
  | close =>
    unfold perform
    rw [close_withInjector]
    rfl

theorem performAll_withInjector (h : injector.KeepsAgain) : ∀ (ops : List Operation) {c : Container},
    Orderly c → (c.withInjector injector).performAll ops =
      (c.performAll ops).map id (·.withInjector injector)
  | [], _, _ => rfl
  | op :: ops, c, hc => by
    have hnext : Orderly (c.perform op).2 := hc.undergoes (perform_undergoes op c)
    unfold performAll
    rw [perform_withInjector h hc op]
    simp only [Prod.map_fst, Prod.map_snd, performAll_withInjector h ops hnext]
    rfl

/-! ### Before and after the first close -/

/-- Destroyers run by a close only, which leaves none. -/
structure Drained (c : Container) : Prop where
  before : .closed ∉ c.events → tornDown c.events = []
  after : .closed ∈ c.events → c.phase = .refreshed ∧ c.destroyers = []

theorem Drained.not_closed (h : Drained c) (hp : c.phase ≠ .refreshed) : .closed ∉ c.events :=
  fun hin => hp (h.after hin).1

theorem Drained.of_not_closed (hn : .closed ∉ c.events) (ht : tornDown c.events = []) :
    Drained c :=
  ⟨fun _ => ht, fun hin => absurd hin hn⟩

theorem closed_mem_cons {e : Event} (he : e.IsQuiet) {es : List Event} :
    .closed ∈ e :: es ↔ .closed ∈ es := by
  rw [List.mem_cons, or_iff_right]
  rintro rfl
  exact he

theorem tornDown_cons {e : Event} (he : e.IsQuiet) {es : List Event} :
    tornDown (e :: es) = tornDown es := by
  cases e <;> first | rfl | exact he.elim

theorem Drained.nothing (h : Drained c) (ha : Alike c c') (hp : c'.progress = c.progress) :
    Drained c' := by
  refine ⟨?_, ?_⟩
  · rw [events, hp]
    exact h.before
  · rw [events, hp, ha.phase, ha.destroyers]
    exact h.after

theorem Drained.noted (h : Drained c) {e : Event} (he : e.IsAside) :
    Drained { c with progress := c.progress.note e } where
  before hn := (tornDown_cons he.isQuiet).trans (h.before fun hin => hn (List.mem_cons_of_mem _ hin))
  after hin := h.after ((closed_mem_cons he.isQuiet).mp hin)

theorem Drained.refused (h : Drained c) (hn : c.phase = .unrefreshed) : Drained c.freeze.2 := by
  have hnot : .closed ∉ c.events := h.not_closed (by rw [hn]; decide)
  rw [c.freeze_spec]
  exact .of_not_closed hnot (h.before hnot)

theorem Orderly.refreshed_drained (h : Orderly c) (hn : c.phase = .unrefreshed) :
    Drained c.freeze.2.complete.2 := by
  obtain ⟨hinjector, -, hidle, hlen⟩ := h.freeze hn
  have hends : c.freeze.2.plan.Ends c.freeze.2.course.1 c.freeze.2.course.2 :=
    Plan.refresh_ends hinjector c.freeze.2.configurations hidle hlen
  have hearly : ∃ es, (∀ e ∈ es, ¬ e.IsLate) ∧
      (c.freeze.2.course.2.events = es ∨ c.freeze.2.course.2.events = .beansWired :: es) := by
    rcases hends.finished with ⟨_, es, -, -, -, -, hes, hearly⟩ | ⟨_, -, hearly⟩
    · exact ⟨es, hearly, .inr hes⟩
    · exact ⟨_, hearly, .inl rfl⟩
  obtain ⟨es, hearly, hes⟩ := hearly
  have hcourse : .closed ∉ c.freeze.2.course.2.events ∧ tornDown c.freeze.2.course.2.events = [] := by
    have hnot : .closed ∉ es := fun hin => hearly _ hin trivial
    have hnone : tornDown es = [] := tornDown_of_early hearly
    rcases hes with hes | hes <;> rw [hes]
    · exact ⟨hnot, hnone⟩
    · exact ⟨fun hin => hnot ((List.mem_cons.mp hin).resolve_left nofun), hnone⟩
  rcases complete_spec c.freeze.2 with ⟨ds, -, hc⟩ | ⟨e, p, -, hp, hc⟩
  · rw [hc]
    exact .of_not_closed (fun hin => hcourse.1 ((List.mem_cons.mp hin).resolve_left nofun)) hcourse.2
  · rw [hc]
    rcases hp with rfl | rfl
    · exact .of_not_closed hcourse.1 hcourse.2
    · exact .of_not_closed (fun hin => hcourse.1 ((List.mem_cons.mp hin).resolve_left nofun)) hcourse.2

theorem Drained.found (h : Drained c) (hp : c.phase = .refreshing) (sel : Selector) :
    Drained { c with progress := (outcome (c.plan.find sel) c.progress).2 } := by
  have hnot : .closed ∉ c.events := h.not_closed (by rw [hp]; decide)
  have hpersists : c.plan.Persists fun p => .closed ∉ p.events ∧ tornDown p.events = [] :=
    Plan.persists_events (P := fun es => .closed ∉ es ∧ tornDown es = []) fun e es he hes =>
      ⟨fun hin => hes.1 ((closed_mem_cons he.isQuiet).mp hin),
        (tornDown_cons he.isQuiet).trans hes.2⟩
  have hfound := (Plan.find_keeps hpersists sel).after ⟨hnot, h.before hnot⟩
  exact .of_not_closed hfound.1 hfound.2

theorem drained_close (hr : c.phase = .refreshed) :
    .closed ∈ c.close.2.events ∧ Drained c.close.2 := by
  unfold close
  rw [hr]
  exact ⟨List.Mem.head _, fun hn => absurd (List.Mem.head _) hn, fun _ => ⟨rfl, rfl⟩⟩

theorem Drained.undergoes (h : Drained c) (ho : Orderly c) (hu : Undergoes c c') : Drained c' := by
  cases hu with
  | nothing alike progress => exact h.nothing alike progress
  | noted alike e aside progress => exact (h.noted aside).nothing (alike.of_progress _) progress
  | refused new panic clash => exact h.refused new
  | refreshed new distinct => exact ho.refreshed_drained new
  | found refreshing sel => exact h.found refreshing sel
  | closed refreshed => exact (drained_close refreshed).2

theorem performAll_drained (compositions : Compositions) (ops : List Operation) :
    Orderly ((empty .standard compositions).performAll ops).2 ∧
      Drained ((empty .standard compositions).performAll ops).2 :=
  performAll_keeps (P := fun c => Orderly c ∧ Drained c)
    (fun _ _ hu h => ⟨h.1.undergoes hu, h.2.undergoes h.1 hu⟩) ops _
    ⟨orderly_empty compositions, .of_not_closed List.not_mem_nil rfl⟩

/-- Once a container is closed, no destroyer runs. -/
theorem performAll_closed (ho : Orderly c) (h : Drained c) (hin : .closed ∈ c.events)
    (ops : List Operation) : tornDown (c.performAll ops).2.events = tornDown c.events := by
  have hkeeps := performAll_keeps (P := fun d => (Orderly d ∧ Drained d) ∧ .closed ∈ d.events ∧
    tornDown d.events = tornDown c.events) (fun d d' hu hd => ?_) ops c ⟨⟨ho, h⟩, hin, rfl⟩
  · exact hkeeps.2.2
  · obtain ⟨⟨hod, hdd⟩, hclosed, htorn⟩ := hd
    refine ⟨⟨hod.undergoes hu, hdd.undergoes hod hu⟩, ?_⟩
    obtain ⟨hphase, hnone⟩ := hdd.after hclosed
    cases hu with
    | nothing alike progress =>
      rw [events, progress]
      exact ⟨hclosed, htorn⟩
    | noted alike e aside progress =>
      rw [events, progress]
      exact ⟨List.mem_cons_of_mem _ hclosed, (tornDown_cons aside.isQuiet).trans htorn⟩
    | refused new _ _ => rw [hphase] at new; cases new
    | refreshed new _ => rw [hphase] at new; cases new
    | found refreshing _ => rw [hphase] at refreshing; cases refreshing
    | closed refreshed =>
      obtain ⟨-, -, -, -, -, -, -, hclose⟩ := close_spec hod refreshed
      rw [hclose, hnone, List.append_nil]
      exact ⟨(drained_close refreshed).1, htorn⟩

/-- No destroyer runs before the first close. That one runs the destroyer of every bean that is
not deleted and has one exactly once, whichever of them fail, and nothing after it runs any. -/
theorem close_destroys_once (injector : Injector) (h : injector.KeepsAgain)
    (compositions : Compositions) (ops : List Operation) :
    let c := ((empty injector compositions).performAll ops).2
    (.closed ∉ c.events → tornDown c.events = []) ∧
      (c.phase = .refreshed → .closed ∉ c.events →
        (∀ b, (tornDown c.close.2.events).count b =
          if c.registry.status b ≠ .deleted ∧ destroys c.beans b then 1 else 0) ∧
        ∀ ops', tornDown (c.close.2.performAll ops').2.events = tornDown c.close.2.events) := by
  obtain ⟨ho, hd⟩ := performAll_drained compositions ops
  have hall := performAll_withInjector h ops (orderly_empty compositions)
  rw [show (empty .standard compositions).withInjector injector = empty injector compositions
    from rfl] at hall
  simp only [hall, Prod.map_snd]
  generalize ((empty .standard compositions).performAll ops).2 = c at ho hd
  refine ⟨hd.before, fun hr hn => ?_⟩
  obtain ⟨hin, hclosed⟩ := drained_close hr
  obtain ⟨-, -, -, -, -, -, -, htorn⟩ := close_spec ho hr
  rw [hd.before hn, List.nil_append] at htorn
  have hdismantles := ho.torn hr
  rw [hd.before hn, List.nil_append] at hdismantles
  simp only [close_withInjector, Prod.map_snd]
  refine ⟨fun b => ?_, fun ops' => ?_⟩
  · show (tornDown c.close.2.events).count b = _
    rw [htorn, hdismantles.nodup.count]
    refine if_congr ((hdismantles.mem b).trans (and_congr_left fun _ => ?_)) rfl rfl
    refine ⟨fun hw => ?_, (ho.complete hr).all b⟩
    rw [show (c.withInjector injector).registry.status b = .wired from hw]
    decide
  · rw [performAll_withInjector h ops' (ho.closed hr)]
    exact performAll_closed (ho.closed hr) hclosed hin ops'

theorem close_destroys_once_of_chain : [Injector.standard, .double].Forall fun injector =>
    let c := ((empty injector ⟨[]⟩).performAll chain).2
    injector.KeepsAgain ∧ c.phase = .refreshed ∧ .closed ∉ c.events ∧
      (tornDown c.close.2.events).count 0 = 1 ∧ (tornDown c.close.2.events).count 1 = 0 := by
  refine List.forall_iff_forall_mem.mpr fun injector hin => ?_
  have hcase : injector.KeepsAgain ∧
      let c := ((empty injector ⟨[]⟩).performAll chain).2
      c.phase = .refreshed ∧ .closed ∉ c.events ∧ c.registry.status 0 ≠ .deleted ∧
        destroys c.beans 0 ∧ ¬ destroys c.beans 1 := by
    rcases List.mem_cons.mp hin with rfl | hin
    · exact ⟨Injector.keepsAgain_standard, by decide +kernel⟩
    · rw [List.mem_singleton.mp hin]
      exact ⟨Injector.keepsAgain_double, by decide +kernel⟩
  obtain ⟨hkeeps, hphase, hclosed, hactive, hzero, hone⟩ := hcase
  have hcount := ((close_destroys_once injector hkeeps ⟨[]⟩ chain).2 hphase hclosed).1
  exact ⟨hkeeps, hphase, hclosed, (hcount 0).trans (if_pos ⟨hactive, hzero⟩),
    (hcount 1).trans (if_neg fun h => hone h.2)⟩

end Container
end Inversion
