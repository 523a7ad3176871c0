/-
# Phases

A container only moves forward through its phases, and only a refresh moves it. So
its phase is known from what has been asked of it and what it answered
(`phase_performAll`): it is unrefreshed up to the first refresh that is asked for, it is
refreshed if a refresh has been answered `done`, and it is refreshing otherwise. A
second refresh is refused, so a container whose refresh has failed stays in that
phase.

An operation that does not fit the phase panics with a panic that tells the phase,
and the container is the one before (`perform_of_misfit`). An operation that fits
does not panic, except for the first refresh (`fits_of_panicked`). Together they
tell which operations any sequence of operations is refused (`phases_gate`).
-/
import Inversion.Proofs.Container

namespace Inversion

/-- The phase that a panic tells. The panics without one come from a refresh that
has begun. -/
def Panic.phase? : Panic → Option Phase
  | tooLate _ phase => some phase
  | tooEarly _ phase => some phase
  | notRefreshed _ phase => some phase
  | alreadyBegun phase => some phase
  | duplicate _ _ => none
  | fatal _ => none

/-- The answer to an operation that is not carried out, for the phase of the container. -/
def Answer.IsRefusal (answer : Answer) : Prop :=
  ∃ panic, answer = .panicked panic ∧ panic.phase?.isSome

/-- Whether an operation is carried out in a phase. -/
def Operation.Fits : Operation → Phase → Prop
  | register _, phase => phase = .unrefreshed
  | configure _, phase => phase = .unrefreshed
  | setProperty _ _, phase => phase = .unrefreshed
  | load _ _, phase => phase = .unrefreshed
  | refresh, phase => phase = .unrefreshed
  | find _, phase => phase ≠ .unrefreshed
  | get _, phase => phase = .refreshed
  | getNamed _ _, phase => phase = .refreshed
  | getAll _, phase => phase = .refreshed
  | spawn _, _ => True
  | cancel, _ => True
  | close, phase => phase = .refreshed

namespace Container

/-- The container carries an operation out, whatever comes of it. -/
def Accepts (c : Container) (op : Operation) : Prop :=
  ∀ panic, (c.perform op).1 ≠ .panicked panic

/-! ### Operations that do not fit -/

section
variable {c : Container}

theorem register_of_begun (bean : Bean) (h : c.phase ≠ .unrefreshed) :
    c.register bean = (.error (.tooLate "register" c.phase), c) := by
  unfold register
  split
  · contradiction
  · rfl

theorem configure_of_begun (configuration : Configuration) (h : c.phase ≠ .unrefreshed) :
    c.configure configuration = (.error (.tooLate "config" c.phase), c) := by
  unfold configure
  split
  · contradiction
  · rfl

theorem setProperty_of_begun (key : String) (setting : Setting) (h : c.phase ≠ .unrefreshed) :
    c.setProperty key setting = (.error (.tooLate "property" c.phase), c) := by
  unfold setProperty
  split
  · contradiction
  · rfl

theorem load_of_begun (file : String) (content : FileContent) (h : c.phase ≠ .unrefreshed) :
    c.load file content = (.error (.tooLate "load" c.phase), c) := by
  unfold load
  split
  · contradiction
  · rfl

theorem refresh_of_begun (h : c.phase ≠ .unrefreshed) :
    c.refresh = (.error (.alreadyBegun c.phase), c) := by
  unfold Container.refresh
  split
  · contradiction
  · rfl

theorem find_of_unrefreshed (sel : Selector) (h : c.phase = .unrefreshed) :
    c.find sel = (.error (.tooEarly "find" c.phase), c) := by
  unfold find
  rw [h]

theorem whenRefreshed_of_ne {α : Type} (operation : String) (f : Unit → α)
    (h : c.phase ≠ .refreshed) :
    c.whenRefreshed operation f = .error (.notRefreshed operation c.phase) := by
  unfold whenRefreshed
  split
  · contradiction
  · rfl

theorem close_of_ne (h : c.phase ≠ .refreshed) :
    c.close = (.error (.notRefreshed "close" c.phase), c) := by
  unfold close
  split
  · contradiction
  · rfl

/-- An operation that does not fit the phase panics with the phase and changes nothing. -/
theorem perform_of_misfit {op : Operation} (h : ¬op.Fits c.phase) :
    ∃ panic, panic.phase? = some c.phase ∧ c.perform op = (.panicked panic, c) := by
  cases op with
  | register bean =>
    refine ⟨.tooLate "register" c.phase, rfl, ?_⟩
    rw [perform, register_of_begun bean h]
    rfl
  | configure configuration =>
    refine ⟨.tooLate "config" c.phase, rfl, ?_⟩
    rw [perform, configure_of_begun configuration h]
    rfl
  | setProperty key setting =>
    refine ⟨.tooLate "property" c.phase, rfl, ?_⟩
    rw [perform, setProperty_of_begun key setting h]
    rfl
  | load file content =>
    refine ⟨.tooLate "load" c.phase, rfl, ?_⟩
    rw [perform, load_of_begun file content h]
    rfl
  | refresh =>
    refine ⟨.alreadyBegun c.phase, rfl, ?_⟩
    rw [perform, refresh_of_begun h]
    rfl
  | find sel =>
    refine ⟨.tooEarly "find" c.phase, rfl, ?_⟩
    rw [perform, find_of_unrefreshed sel (Decidable.not_not.mp h)]
    rfl
  | get t =>
    refine ⟨.notRefreshed "get" c.phase, rfl, ?_⟩
    rw [perform, get, whenRefreshed_of_ne "get" _ h]
    rfl
  | getNamed t name =>
    refine ⟨.notRefreshed "get_named" c.phase, rfl, ?_⟩
    rw [perform, getNamed, whenRefreshed_of_ne "get_named" _ h]
    rfl
  | getAll t =>
    refine ⟨.notRefreshed "get_all" c.phase, rfl, ?_⟩
    rw [perform, getAll, whenRefreshed_of_ne "get_all" _ h]
    rfl
  | spawn script => exact absurd trivial h
  | cancel => exact absurd trivial h
  | close =>
    refine ⟨.notRefreshed "close" c.phase, rfl, ?_⟩
    rw [perform, close_of_ne h]
    rfl

end

/-! ### Operations that fit -/

section
variable {c : Container}

theorem ofResult_ok_ne {ε α : Type} {failed : ε → Answer} {f : α → Answer} {panic : Panic}
    (hfailed : ∀ e, failed e ≠ .panicked panic) (hf : ∀ a, f a ≠ .panicked panic) :
    ∀ r : Except ε α, Answer.ofResult failed f (.ok r) ≠ .panicked panic
  | .ok a => hf a
  | .error e => hfailed e

theorem whenRefreshed_of_phase {α : Type} (operation : String) (f : Unit → α)
    (h : c.phase = .refreshed) : c.whenRefreshed operation f = .ok (f ()) := by
  unfold whenRefreshed
  rw [h]

/-- What a refresh panics with once it has begun. -/
theorem phase?_of_refresh (h : c.phase = .unrefreshed) {panic : Panic}
    (hr : c.refresh.1 = .error panic) : panic.phase? = none := by
  rcases c.freeze_cases with ⟨hdistinct, -⟩ | ⟨front, b, rest, a, -, -, -, hclash, -⟩
  · rw [refresh_of_distinct h hdistinct] at hr
    obtain ⟨cause, hcause, -, -⟩ := resolve_of_complete hr
    rw [hcause]
    rfl
  · rw [refresh_of_clash h hclash] at hr
    rw [← Except.error.inj hr]
    rfl

/-- An operation that fits the phase is carried out. Only a refresh can break off then, and
not because of the phase. -/
theorem panicked_of_fits {op : Operation} (h : op.Fits c.phase) {panic : Panic}
    (hp : (c.perform op).1 = .panicked panic) : op = .refresh ∧ panic.phase? = none := by
  cases op with
  | register bean =>
    rw [perform, register, show c.phase = .unrefreshed from h] at hp
    cases hp
  | configure configuration =>
    rw [perform, configure, show c.phase = .unrefreshed from h] at hp
    cases hp
  | setProperty key setting =>
    rw [perform, setProperty, show c.phase = .unrefreshed from h] at hp
    cases hp
  | load file content =>
    change Answer.ofResult _ _ (c.load file content).1 = _ at hp
    unfold load at hp
    split at hp
    · split at hp <;> cases hp
    · contradiction
  | refresh =>
    refine ⟨rfl, ?_⟩
    rcases hr : c.refresh.1 with clash | r
    · have hanswer : (c.perform .refresh).1 = .panicked clash := by
        show Answer.ofResult _ _ c.refresh.1 = _
        rw [hr]
        rfl
      obtain rfl : clash = panic := Answer.panicked.inj (hanswer.symm.trans hp)
      exact phase?_of_refresh h hr
    · change Answer.ofResult _ _ c.refresh.1 = _ at hp
      rw [hr] at hp
      exact absurd hp (ofResult_ok_ne nofun nofun r)
  | find sel =>
    change Answer.ofResult _ _ (c.find sel).1 = _ at hp
    unfold find at hp
    split at hp
    · contradiction
    · exact absurd hp (ofResult_ok_ne nofun nofun _)
    · exact absurd hp (ofResult_ok_ne nofun nofun _)
  | get t =>
    rw [perform, get, whenRefreshed_of_phase "get" _ h] at hp
    exact absurd hp (ofResult_ok_ne nofun nofun _)
  | getNamed t name =>
    rw [perform, getNamed, whenRefreshed_of_phase "get_named" _ h] at hp
    exact absurd hp (ofResult_ok_ne nofun nofun _)
  | getAll t =>
    rw [perform, getAll, whenRefreshed_of_phase "get_all" _ h] at hp
    exact absurd hp (ofResult_ok_ne nofun nofun _)
  | spawn script => cases hp
  | cancel => cases hp
  | close =>
    rw [perform, close, show c.phase = .refreshed from h] at hp
    cases hp

/-- An operation is refused in the phases that it does not fit, and then it changes nothing. -/
theorem isRefusal_iff {op : Operation} : (c.perform op).1.IsRefusal ↔ ¬op.Fits c.phase := by
  constructor
  · rintro ⟨panic, hp, hphase⟩ h
    rw [(panicked_of_fits h hp).2] at hphase
    cases hphase
  · intro h
    obtain ⟨panic, hphase, hp⟩ := perform_of_misfit h
    refine ⟨panic, ?_, ?_⟩
    · rw [hp]
    · rw [hphase]
      rfl

theorem eq_of_isRefusal {op : Operation} (h : (c.perform op).1.IsRefusal) :
    (c.perform op).2 = c := by
  obtain ⟨panic, -, hp⟩ := perform_of_misfit (isRefusal_iff.mp h)
  rw [hp]

/-- Apart from a refresh, an operation is carried out exactly in the phases that it fits. -/
theorem accepts_iff {op : Operation} (hop : op ≠ .refresh) : c.Accepts op ↔ op.Fits c.phase := by
  constructor
  · intro h
    refine Classical.byContradiction fun hn => ?_
    obtain ⟨panic, -, hp⟩ := perform_of_misfit hn
    exact h panic (by rw [hp])
  · intro h panic hp
    exact hop (panicked_of_fits h hp).1

end

/-! ### How the phase changes -/

section
variable {c : Container}

/-- Only a refresh moves a container on. -/
theorem phase_perform {op : Operation} (hop : op ≠ .refresh) : (c.perform op).2.phase = c.phase := by
  cases op with
  | register bean =>
    show (c.register bean).2.phase = c.phase
    unfold register
    split <;> rfl
  | configure configuration =>
    show (c.configure configuration).2.phase = c.phase
    unfold configure
    split <;> rfl
  | setProperty key setting =>
    show (c.setProperty key setting).2.phase = c.phase
    unfold setProperty
    split <;> rfl
  | load file content =>
    show (c.load file content).2.phase = c.phase
    unfold load
    split
    · split <;> rfl
    · rfl
  | refresh => exact absurd rfl hop
  | find sel =>
    show (c.find sel).2.phase = c.phase
    unfold find
    split <;> rfl
  | close => exact phase_close c
  | _ => rfl

/-- The first refresh completes, or it leaves the container on the way. -/
theorem phase_refresh (h : c.phase = .unrefreshed) :
    (c.perform .refresh).1 = .done ∧ (c.perform .refresh).2.phase = .refreshed ∨
      (c.perform .refresh).1 ≠ .done ∧ (c.perform .refresh).2.phase = .refreshing := by
  have hfrozen : c.freeze.2.phase = .refreshing := by rw [freeze_spec]
  show Answer.ofResult _ _ c.refresh.1 = _ ∧ c.refresh.2.phase = _ ∨
    Answer.ofResult _ _ c.refresh.1 ≠ _ ∧ c.refresh.2.phase = _
  cases hf : c.freeze.1 with
  | some clash =>
    right
    rw [refresh_of_clash h hf]
    exact ⟨nofun, hfrozen⟩
  | none =>
    rw [refresh_of_distinct h hf]
    rcases complete_spec c.freeze.2 with ⟨ds, hds, hc⟩ | ⟨e, p, he, -, hc⟩
    · left
      rw [complete_ok_iff.mpr ⟨ds, hds⟩, hc]
      exact ⟨rfl, rfl⟩
    · right
      refine ⟨fun hdone => ?_, by rw [hc]; exact hfrozen⟩
      have hok : c.freeze.2.complete.1 = .ok (.ok ()) := by
        rcases hr : c.freeze.2.complete.1 with panic | e | u
        · rw [hr] at hdone
          cases hdone
        · rw [hr] at hdone
          cases hdone
        · rfl
      obtain ⟨ds, hds⟩ := complete_ok_iff.mp hok
      rw [he] at hds
      cases hds

end

/-! ### Sequences of operations -/

/-- Once a refresh has begun or completed, the phase stays, and no refresh completes any more. -/
theorem phase_of_begun : ∀ (ops : List Operation) {c : Container}, c.phase ≠ .unrefreshed →
    (c.performAll ops).2.phase = c.phase ∧ (.refresh, .done) ∉ ops.zip (c.performAll ops).1
  | [], _, _ => ⟨rfl, List.not_mem_nil⟩
  | op :: ops, c, h => by
    have hstep : (c.perform op).2.phase = c.phase ∧ (Operation.refresh, Answer.done) ≠
        (op, (c.perform op).1) := by
      by_cases hop : op = .refresh
      · subst hop
        obtain ⟨panic, -, hp⟩ := perform_of_misfit (show ¬Operation.refresh.Fits c.phase from h)
        rw [hp]
        exact ⟨rfl, nofun⟩
      · exact ⟨phase_perform hop, fun he => hop (Prod.mk.inj he).1.symm⟩
    obtain ⟨hphase, hdone⟩ := phase_of_begun ops (c := (c.perform op).2) (hstep.1 ▸ h)
    refine ⟨hphase.trans hstep.1, fun hin => ?_⟩
    rcases List.mem_cons.mp hin with hin | hin
    · exact hstep.2 hin
    · exact hdone hin

/-- What has been asked for and answered tells the phase. -/
theorem phase_performAll : ∀ (ops : List Operation) {c : Container}, c.phase = .unrefreshed →
    ((c.performAll ops).2.phase = .unrefreshed ↔ .refresh ∉ ops) ∧
      ((c.performAll ops).2.phase = .refreshed ↔ (.refresh, .done) ∈ ops.zip (c.performAll ops).1)
  | [], c, h => by
    refine ⟨iff_of_true h List.not_mem_nil, iff_of_false (fun hr => ?_) List.not_mem_nil⟩
    cases h.symm.trans hr
  | op :: ops, c, h => by
    have hzip : ∀ x, x ∈ (op :: ops).zip (c.performAll (op :: ops)).1 ↔
        x = (op, (c.perform op).1) ∨ x ∈ ops.zip ((c.perform op).2.performAll ops).1 :=
      fun _ => List.mem_cons
    have hrun : (c.performAll (op :: ops)).2 = ((c.perform op).2.performAll ops).2 := rfl
    rw [hrun, hzip, List.mem_cons]
    by_cases hop : op = .refresh
    · subst hop
      have hasked : ¬¬(Operation.refresh = .refresh ∨ .refresh ∈ ops) := not_not_intro (.inl rfl)
      rcases phase_refresh h with ⟨hdone, hp⟩ | ⟨hdone, hp⟩
      · obtain ⟨hphase, -⟩ := phase_of_begun ops (c := (c.perform .refresh).2) (by rw [hp]; decide)
        rw [hphase, hp, hdone]
        exact ⟨iff_of_false nofun hasked, iff_of_true rfl (.inl rfl)⟩
      · obtain ⟨hphase, hnone⟩ :=
          phase_of_begun ops (c := (c.perform .refresh).2) (by rw [hp]; decide)
        rw [hphase, hp]
        refine ⟨iff_of_false nofun hasked, iff_of_false nofun ?_⟩
        rintro (hin | hin)
        · exact hdone (Prod.mk.inj hin).2.symm
        · exact hnone hin
    · obtain ⟨hnew, hdone⟩ := phase_performAll ops (c := (c.perform op).2)
        ((phase_perform hop).trans h)
      refine ⟨hnew.trans (not_congr ?_), hdone.trans ?_⟩
      · exact ⟨.inr, fun hin => hin.resolve_left fun he => hop he.symm⟩
      · exact ⟨.inr, fun hin => hin.resolve_left fun he => hop (Prod.mk.inj he).1.symm⟩

/-- Whatever has been asked of a container: beans, configurations, properties and files
are taken up to the first refresh that is asked for, beans are found from then on, and
instances are served, and the container is closed, once a refresh has been answered
`done`. A refresh is refused if there was one before. What is refused changes nothing
at all, and a container whose refresh did not complete is refreshing for ever. -/
theorem phases_gate (injector : Injector) (compositions : Compositions)
    (before : List Operation) :
    let answers := ((empty injector compositions).performAll before).1
    let c := ((empty injector compositions).performAll before).2
    (∀ bean, c.Accepts (.register bean) ↔ .refresh ∉ before) ∧
      (∀ configuration, c.Accepts (.configure configuration) ↔ .refresh ∉ before) ∧
      (∀ key setting, c.Accepts (.setProperty key setting) ↔ .refresh ∉ before) ∧
      (∀ file content, c.Accepts (.load file content) ↔ .refresh ∉ before) ∧
      (∀ sel, c.Accepts (.find sel) ↔ .refresh ∈ before) ∧
      (∀ t, c.Accepts (.get t) ↔ (.refresh, .done) ∈ before.zip answers) ∧
      (∀ t name, c.Accepts (.getNamed t name) ↔ (.refresh, .done) ∈ before.zip answers) ∧
      (∀ t, c.Accepts (.getAll t) ↔ (.refresh, .done) ∈ before.zip answers) ∧
      (c.Accepts .close ↔ (.refresh, .done) ∈ before.zip answers) ∧
      ((c.perform .refresh).1.IsRefusal ↔ .refresh ∈ before) ∧
      (∀ op, (c.perform op).1.IsRefusal → (c.perform op).2 = c) ∧
      (.refresh ∈ before → (.refresh, .done) ∉ before.zip answers →
        ∀ after, (c.performAll after).2.phase = .refreshing) := by
  intro answers c
  obtain ⟨hnew, hdone⟩ := phase_performAll before (show (empty injector compositions).phase = .unrefreshed from rfl)
  change c.phase = .unrefreshed ↔ _ at hnew
  change c.phase = .refreshed ↔ (.refresh, .done) ∈ before.zip answers at hdone
  have hbegun : c.phase ≠ .unrefreshed ↔ .refresh ∈ before := by
    rw [Ne, hnew, Classical.not_not]
  have hfits : ∀ op, op ≠ .refresh → (c.Accepts op ↔ op.Fits c.phase) := fun _ => accepts_iff
  refine ⟨fun bean => ?_, fun configuration => ?_, fun key setting => ?_, fun file content => ?_,
    fun sel => ?_, fun t => ?_, fun t name => ?_, fun t => ?_, ?_, ?_, fun op => eq_of_isRefusal,
    fun hasked hnone after => ?_⟩
  · exact (hfits (.register bean) nofun).trans hnew
  · exact (hfits (.configure configuration) nofun).trans hnew
  · exact (hfits (.setProperty key setting) nofun).trans hnew
  · exact (hfits (.load file content) nofun).trans hnew
  · exact (hfits (.find sel) nofun).trans hbegun
  · exact (hfits (.get t) nofun).trans hdone
  · exact (hfits (.getNamed t name) nofun).trans hdone
  · exact (hfits (.getAll t) nofun).trans hdone
  · exact (hfits .close nofun).trans hdone
  · exact isRefusal_iff.trans hbegun
  · have hb : c.phase ≠ .unrefreshed := hbegun.mpr hasked
    have hr : c.phase ≠ .refreshed := fun h => hnone (hdone.mp h)
    rw [(phase_of_begun after hb).1]
    cases hp : c.phase with
    | unrefreshed => exact absurd hp hb
    | refreshing => rfl
    | refreshed => exact absurd hp hr

/-- A refresh of two beans of one identity. -/
def doubled : List Operation :=
  [.register (.plain (.of "app::A") (.main 0) .window), .register (.plain (.of "app::A") (.main 0) .window), .refresh]

theorem phases_gate_of_doubled :
    let c := ((empty .standard ⟨[]⟩).performAll doubled).2
    c.Accepts (.find (.type (.of "app::A"))) ∧ ¬c.Accepts (.getAll (.of "app::A")) ∧
      ∀ after, (c.performAll after).2.phase = .refreshing := by
  intro c
  have hphase : c.phase = .refreshing := by decide +kernel
  have hasked : .refresh ∈ doubled := List.mem_cons_of_mem _ (List.mem_cons_of_mem _ (.head []))
  have hnone : (.refresh, .done) ∉ doubled.zip ((empty .standard ⟨[]⟩).performAll doubled).1 := by
    intro hdone
    have hr : c.phase = .refreshed := (phase_performAll doubled rfl).2.mpr hdone
    rw [hphase] at hr
    cases hr
  obtain ⟨-, -, -, -, hfind, -, -, hgetAll, -, -, -, hstays⟩ := phases_gate .standard ⟨[]⟩ doubled
  refine ⟨(hfind _).mpr hasked, fun haccepts => ?_, hstays hasked hnone⟩
  exact hnone ((hgetAll _).mp haccepts)

end Container
end Inversion
