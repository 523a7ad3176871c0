/-
# Closing while tasks go on

A container is closed while its tasks go on, each in its own thread, and while tasks may still
be started from outside (`Draining`). The one who closes cancels the context, waits for the
tasks whose handles it finds recorded, until it finds none, and then runs the destroyers one by
one. All of them take their steps in any order (`Step`).

A task that is not finished is never forgotten before then: its handle is recorded or taken, or
it is being started from outside, or its parent has started it and is not finished either
(`Tracked`). So where no handle is left, a task that is not finished has nobody above it whose
start had come to its end (`Tracked.over`), and a task that is finished starts no other. That
is why no destroyer runs before the whole tree below a task is finished
(`close_waits_for_tree`).
-/
import Mathlib.Logic.Relation
import Inversion.Proofs.Closing
import Inversion.Proofs.Supervision

namespace Inversion

open Relation

/-- A container that is closed, and what is known of its tasks: who has started each of them,
if it was a task, and which have been started from outside and not been recorded yet. -/
structure Draining where
  container : Container
  parents : List (Option Nat)
  entering : List Nat
  closing : Closing

namespace Draining

abbrev supervisor (w : Draining) : Supervisor :=
  w.container.supervisor

/-- No task has been started, and the one who closes has not begun. -/
def begin (c : Container) : Draining :=
  ⟨c, [], [], .cancel⟩

/-- The threads and the tree have changed. -/
def supervise (s : Supervisor) (parents : List (Option Nat)) (w : Draining) : Draining :=
  { w with container := { w.container with supervisor := s }, parents }

/-- A thread has moved, and a task that it has started is its child. -/
def follow (t : Nat) (s : Supervisor) (w : Draining) : Draining :=
  w.supervise s
    (w.parents ++ List.replicate (s.threads.length - w.supervisor.threads.length) (some t))

/-- A task is started from outside. -/
def enter (script : Script) (w : Draining) : Draining :=
  { w.supervise (w.supervisor.launch script) (w.parents ++ [none]) with
    entering := w.entering ++ [w.supervisor.threads.length] }

/-- A task that was started from outside is recorded. -/
def record (t : Nat) (w : Draining) : Draining :=
  { w.supervise (w.supervisor.recordHandle t) w.parents with entering := w.entering.erase t }

/-- The one who closes goes on. -/
def proceed (closing : Closing) (s : Supervisor) (w : Draining) : Draining :=
  let c := { w.container with supervisor := s }
  { w with closing, container := if closing = .exited then c.note .tasksExited else c }

/-- A destroyer runs, and `rest` are left. -/
def tearDown (b : Nat) (rest : List Nat) (w : Draining) : Draining :=
  { w with container := { w.container with
      destroyers := rest, progress := w.container.plan.tearDown w.container.progress b } }

/-- A step of a task, of someone outside, or of the one who closes. -/
inductive Step (w : Draining) : Draining → Prop
  | task {t : Nat} {s : Supervisor} (h : w.supervisor.Moves t s) : Step w (w.follow t s)
  | enter (script : Script) : Step w (w.enter script)
  | record {t : Nat} (h : t ∈ w.entering) : Step w (w.record t)
  | cancel : Step w (w.supervise { w.supervisor with cancelled := true } w.parents)
  | close {closing : Closing} {s : Supervisor}
      (h : w.closing.step w.supervisor = some (closing, s)) : Step w (w.proceed closing s)
  | destroy {b : Nat} {rest : List Nat} (hexited : w.closing = .exited)
      (h : w.container.destroyers = b :: rest) : Step w (w.tearDown b rest)

abbrev Runs : Draining → Draining → Prop :=
  ReflTransGen Step

variable {w w' : Draining} {t p d : Nat}

/-- As long as the one who closes is not done, it does nothing to the container. -/
theorem container_proceed {closing : Closing} (h : closing ≠ .exited) (s : Supervisor) :
    (w.proceed closing s).container = { w.container with supervisor := s } :=
  if_neg h

@[simp] theorem supervisor_proceed (closing : Closing) (s : Supervisor) :
    (w.proceed closing s).supervisor = s := by
  unfold proceed supervisor
  split <;> rfl

/-! ### The tree of tasks -/

/-- The task `d` has been started by `t`, or by one that descends from it, or it is `t`. -/
def Descends (w : Draining) : Nat → Nat → Prop :=
  ReflTransGen fun p d => w.parents[d]? = some (some p)

/-- The call that started the task is over. -/
structure Returned (w : Draining) (t : Nat) : Prop where
  lt : t < w.parents.length
  entered : t ∉ w.entering
  recorded : ∀ p, ¬ w.supervisor.Starting p t

/-- Every task that is not finished is known to someone. -/
structure Tracked (w : Draining) : Prop where
  length : w.parents.length = w.supervisor.threads.length
  child : ∀ p d, w.supervisor.Starting p d → w.parents[d]? = some (some p)
  entered : ∀ d ∈ w.entering, w.parents[d]? = some none
  known : ∀ d, w.supervisor.Busy d → d ∈ w.supervisor.handles ∨ d ∈ w.closing.waiting ∨
    d ∈ w.entering ∨ ∃ p, w.supervisor.Starting p d

theorem tracked_begin {c : Container} (h : c.supervisor = .start) : (begin c).Tracked := by
  have hs : (begin c).supervisor = .start := h
  refine ⟨?_, fun p d hp => ?_, nofun, fun d hd => ?_⟩
  · rw [hs]
    rfl
  · rw [hs] at hp
    obtain ⟨script, hp⟩ := hp
    cases hp
  · rw [hs] at hd
    obtain ⟨thread, hd, -⟩ := hd
    cases hd

/-- What is known of the parents stays. -/
theorem parents_stay {q : Option Nat} (h : w.parents[d]? = some q) (l : List (Option Nat)) :
    (w.parents ++ l)[d]? = some q := by
  rw [List.getElem?_append_left (List.getElem?_eq_some_iff.mp h).1]
  exact h

theorem Tracked.follow {s : Supervisor} (h : w.Tracked) (hm : w.supervisor.Moves t s) :
    (w.follow t s).Tracked where
  length := by
    have hle : w.supervisor.threads.length ≤ s.threads.length := by
      rcases hm.length with hlen | ⟨hlen, -⟩ <;> omega
    show (w.parents ++ List.replicate _ _).length = s.threads.length
    rw [List.length_append, List.length_replicate, h.length, Nat.add_sub_cancel' hle]
  child p d hd := by
    rcases hm.starting hd with hd | ⟨rfl, rfl, hmore⟩
    · exact parents_stay (h.child p d hd) _
    · show (w.parents ++ List.replicate _ _)[_]? = _
      rw [hmore, Nat.add_sub_cancel_left, List.replicate_one, ← h.length]
      exact List.getElem?_concat_length ..
  entered d hd := parents_stay (h.entered d hd) _
  known d hd := by
    rcases hm.busy hd with hd | ⟨rfl, hd⟩
    · rcases h.known d hd with hd | hd | hd | ⟨p, hd⟩
      · exact .inl (hm.handles hd)
      · exact .inr (.inl hd)
      · exact .inr (.inr (.inl hd))
      · exact (hm.stays hd).elim (fun hd => .inr (.inr (.inr ⟨p, hd⟩))) .inl
    · exact .inr (.inr (.inr ⟨t, hd⟩))

theorem Tracked.enter (h : w.Tracked) (script : Script) : (w.enter script).Tracked where
  length := by
    show (w.parents ++ [none]).length = (w.supervisor.threads ++ [_]).length
    rw [List.length_append, List.length_append, h.length]
    rfl
  child p d hd := parents_stay (h.child p d (Supervisor.starting_launch hd)) _
  entered d hd := by
    rcases List.mem_append.mp hd with hd | hd
    · exact parents_stay (h.entered d hd) _
    · rw [List.mem_singleton.mp hd, ← h.length]
      exact List.getElem?_concat_length ..
  known d hd := by
    rcases Supervisor.busy_launch hd with hd | hd
    · rcases h.known d hd with hd | hd | hd | ⟨p, hd⟩
      · exact .inl hd
      · exact .inr (.inl hd)
      · exact .inr (.inr (.inl (List.mem_append_left _ hd)))
      · exact .inr (.inr (.inr ⟨p, hd.launch script⟩))
    · exact .inr (.inr (.inl (List.mem_append_right _ (List.mem_singleton.mpr hd))))

theorem Tracked.record (h : w.Tracked) (t : Nat) : (w.record t).Tracked where
  length := h.length
  child := h.child
  entered d hd := h.entered d (List.mem_of_mem_erase hd)
  known d hd := by
    rcases h.known d hd with hd | hd | hd | hd
    · exact .inl (List.mem_append_left _ hd)
    · exact .inr (.inl hd)
    · by_cases hdt : d = t
      · exact .inl (List.mem_append_right _ (List.mem_singleton.mpr hdt))
      · exact .inr (.inr (.inl ((List.mem_erase_of_ne hdt).mpr hd)))
    · exact .inr (.inr (.inr hd))

theorem Tracked.proceed {closing : Closing} {s : Supervisor} (h : w.Tracked)
    (hc : w.closing.step w.supervisor = some (closing, s)) : (w.proceed closing s).Tracked := by
  have hthreads := Closing.threads_step hc
  refine ⟨?_, fun p d hd => ?_, h.entered, fun d hbusy => ?_⟩
  · rw [supervisor_proceed, hthreads]
    exact h.length
  · rw [supervisor_proceed, Supervisor.starting_congr hthreads] at hd
    exact h.child p d hd
  · rw [supervisor_proceed] at hbusy ⊢
    rw [Supervisor.busy_congr hthreads] at hbusy
    show _ ∨ d ∈ closing.waiting ∨ _
    simp only [Supervisor.starting_congr hthreads]
    have hknown := h.known d hbusy
    obtain ⟨hw, rfl, rfl⟩ | ⟨hw, -, rfl, rfl⟩ | ⟨hw, -, rfl, rfl⟩ | ⟨hw, rfl, rfl⟩ |
      ⟨t, ws, hw, hfinished, rfl, rfl⟩ := Closing.step_cases hc
    all_goals rw [hw] at hknown
    · exact hknown
    · exact hknown
    · rcases hknown with hd | hd | hd
      · exact .inr (.inl hd)
      · cases hd
      · exact .inr (.inr hd)
    · exact hknown
    · rcases hknown with hd | hd | hd
      · exact .inl hd
      · rcases List.mem_cons.mp hd with rfl | hd
        · rw [Supervisor.busy_iff, hfinished] at hbusy
          cases hbusy
        · exact .inr (.inl hd)
      · exact .inr (.inr hd)

theorem Tracked.step (h : w.Tracked) (hs : Step w w') : w'.Tracked := by
  cases hs with
  | task hm => exact h.follow hm
  | enter script => exact h.enter script
  | record _ => exact h.record _
  | cancel => exact ⟨h.length, h.child, h.entered, h.known⟩
  | close hc => exact h.proceed hc
  | destroy _ _ => exact ⟨h.length, h.child, h.entered, h.known⟩

theorem Tracked.runs (h : w.Tracked) (hr : Runs w w') : w'.Tracked := by
  induction hr with
  | refl => exact h
  | tail _ hs ih => exact ih.step hs

/-! ### What a step adds -/

namespace Step

variable (hs : Step w w')
include hs

/-- A task that is not finished was there before, or is the one that is started now. -/
theorem busy (h : w.Tracked) (hd : w'.supervisor.Busy d) :
    w.supervisor.Busy d ∨ d = w.parents.length := by
  rw [h.length]
  cases hs with
  | task hm => exact (hm.busy hd).imp_right And.left
  | enter script => exact Supervisor.busy_launch hd
  | record _ => exact .inl hd
  | cancel => exact .inl hd
  | close hc =>
    rw [supervisor_proceed, Supervisor.busy_congr (Closing.threads_step hc)] at hd
    exact .inl hd
  | destroy _ _ => exact .inl hd

theorem starting (h : w.Tracked) (hd : w'.supervisor.Starting p d) :
    w.supervisor.Starting p d ∨ d = w.parents.length := by
  rw [h.length]
  cases hs with
  | task hm => exact (hm.starting hd).imp_right fun hd => hd.2.1
  | enter script => exact .inl (Supervisor.starting_launch hd)
  | record _ => exact .inl hd
  | cancel => exact .inl hd
  | close hc =>
    rw [supervisor_proceed, Supervisor.starting_congr (Closing.threads_step hc)] at hd
    exact .inl hd
  | destroy _ _ => exact .inl hd

/-- Only a task that is not finished gets a child. -/
theorem parent (hd : w'.parents[d]? = some (some p)) :
    w.parents[d]? = some (some p) ∨ w.supervisor.Busy p := by
  have happend : ∀ {l : List (Option Nat)}, (w.parents ++ l)[d]? = some (some p) →
      w.parents[d]? = some (some p) ∨ some p ∈ l := by
    intro l hd
    rw [List.getElem?_append] at hd
    split at hd
    · exact .inl hd
    · exact .inr (List.mem_of_getElem? hd)
  cases hs with
  | task hm =>
    refine (happend hd).imp_right fun hp => ?_
    cases List.eq_of_mem_replicate hp
    exact hm.busy_mover
  | enter script => exact (happend hd).imp_right fun hp => by cases List.mem_singleton.mp hp
  | record _ => exact .inl hd
  | cancel => exact .inl hd
  | close _ => exact .inl hd
  | destroy _ _ => exact .inl hd

theorem le_length : w.parents.length ≤ w'.parents.length := by
  cases hs with
  | task _ => exact (List.length_append ..).symm ▸ Nat.le_add_right ..
  | enter script => exact (List.length_append ..).symm ▸ Nat.le_add_right ..
  | _ => exact Nat.le_refl _

theorem entering (h : w.Tracked) (hd : d ∈ w'.entering) : d ∈ w.entering ∨ d = w.parents.length := by
  cases hs with
  | enter script =>
    rw [h.length]
    exact (List.mem_append.mp hd).imp_right List.mem_singleton.mp
  | record _ => exact .inl (List.mem_of_mem_erase hd)
  | task _ => exact .inl hd
  | cancel => exact .inl hd
  | close _ => exact .inl hd
  | destroy _ _ => exact .inl hd

/-- Once the call that started a task is over, it is over. -/
theorem returned (h : w.Tracked) (ht : w.Returned t) : w'.Returned t := by
  have hne : t ≠ w.parents.length := Nat.ne_of_lt ht.lt
  refine ⟨Nat.lt_of_lt_of_le ht.lt hs.le_length, fun hin => ?_, fun p hp => ?_⟩
  · exact (hs.entering h hin).elim ht.entered hne
  · exact (hs.starting h hp).elim (ht.recorded p) hne

end Step

theorem Returned.runs (ht : w.Returned t) (h : w.Tracked) (hr : Runs w w') : w'.Returned t := by
  induction hr with
  | refl => exact ht
  | tail hr hs ih => exact hs.returned (h.runs hr) ih

/-! ### Where no handle is left -/

/-- All tasks that descend from the task are finished. -/
def Over (w : Draining) (t : Nat) : Prop :=
  ∀ d, w.Descends t d → ¬ w.supervisor.Busy d

/-- Where nobody is waited for and no handle is recorded, a task that is not finished is being
started, and so are all those that it descends from. -/
theorem Tracked.over (h : w.Tracked) (hhandles : w.supervisor.handles = [])
    (hwaiting : w.closing.waiting = []) (ht : w.Returned t) : w.Over t := by
  have hstarted : ∀ {x}, w.supervisor.Busy x → x ∈ w.entering ∨ ∃ p, w.supervisor.Starting p x := by
    intro x hx
    have hknown := h.known x hx
    rw [hhandles, hwaiting] at hknown
    simpa using hknown
  intro d hd hbusy
  suffices hbusy : w.supervisor.Busy t from
    (hstarted hbusy).elim ht.entered fun ⟨p, hp⟩ => ht.recorded p hp
  -- up the tree: the parent of a task that is being started is about to record it
  induction hd with
  | refl => exact hbusy
  | @tail x y _ hxy ih =>
    refine ih ?_
    rcases hstarted hbusy with hy | ⟨p, hp⟩
    · cases hxy.symm.trans (h.entered y hy)
    · cases hxy.symm.trans (h.child p y hp)
      exact hp.busy

/-- Tasks that are finished start no others. -/
theorem Over.step (h : w.Tracked) (ht : w.Returned t) (ho : w.Over t) (hs : Step w w') :
    w'.Over t := by
  have hdescends : ∀ {d}, w'.Descends t d → w.Descends t d := by
    intro d hd
    induction hd with
    | refl => exact .refl
    | tail _ hxy ih => exact ih.tail ((hs.parent hxy).resolve_right (ho _ ih))
  have hlt : ∀ {d}, w.Descends t d → d < w.parents.length := by
    intro d hd
    cases hd with
    | refl => exact ht.lt
    | tail _ hxy => exact (List.getElem?_eq_some_iff.mp hxy).1
  intro d hd hbusy
  have hd := hdescends hd
  exact (hs.busy h hbusy).elim (ho d hd) (Nat.ne_of_lt (hlt hd))

/-- What holds of a task whose start is over, up to the end. -/
structure Guarded (t : Nat) (w : Draining) : Prop where
  tracked : w.Tracked
  returned : w.Returned t
  finished : w.closing = .exited → w.Over t

theorem Guarded.step (h : Guarded t w) (hs : Step w w') : Guarded t w' := by
  refine ⟨h.tracked.step hs, hs.returned h.tracked h.returned, fun he => ?_⟩
  by_cases hexited : w.closing = .exited
  · exact (h.finished hexited).step h.tracked h.returned hs
  · cases hs with
    | close hc =>
      -- of all its steps only one leads there, where it has found no handle
      obtain ⟨-, rfl, -⟩ | ⟨hw, hhandles, rfl, rfl⟩ | ⟨-, -, rfl, -⟩ | ⟨-, rfl, -⟩ |
        ⟨x, ws, -, -, rfl, -⟩ := Closing.step_cases hc
      · cases he
      · have hover : w.Over t := h.tracked.over hhandles (by rw [hw]; rfl) h.returned
        exact hover.step h.tracked h.returned (.close hc)
      · cases he
      · cases he
      · cases he
    | _ => exact absurd he hexited

theorem Guarded.runs (h : Guarded t w) (hr : Runs w w') : Guarded t w' := by
  induction hr with
  | refl => exact h
  | tail _ hs ih => exact ih.step hs

/-- Before the one who closes has found no handle, no destroyer runs. -/
theorem untouched (hr : Runs w w') (he : w'.closing ≠ .exited) :
    w'.container.destroyers = w.container.destroyers ∧
      w'.container.progress = w.container.progress := by
  induction hr with
  | refl => exact ⟨rfl, rfl⟩
  | @tail v w' _ hs ih =>
    cases hs with
    | @close closing s hc =>
      have hv : v.closing ≠ .exited := fun hv => by
        rw [hv] at hc
        cases hc
      rw [container_proceed (show closing ≠ .exited from he)]
      exact ih hv
    | destroy hexited _ => exact absurd hexited he
    | _ => exact ih he

/-! ### Closing comes to an end -/

/-- A step that a task takes by its script, or a step of the one who closes. -/
inductive Inner (w : Draining) : Draining → Prop
  | task {t : Nat} {s : Supervisor} (h : w.supervisor.step t = some s) : Inner w (w.follow t s)
  | close {closing : Closing} {s : Supervisor}
      (h : w.closing.step w.supervisor = some (closing, s)) : Inner w (w.proceed closing s)
  | destroy {b : Nat} {rest : List Nat} (hexited : w.closing = .exited)
      (h : w.container.destroyers = b :: rest) : Inner w (w.tearDown b rest)

theorem Inner.step (h : Inner w w') : Step w w' := by
  cases h with
  | task h => exact .task (Supervisor.moves_of_step h)
  | close h => exact .close h
  | destroy hexited h => exact .destroy hexited h

/-- How many inner steps there are at most. -/
def effort (w : Draining) : Nat :=
  w.closing.effort w.supervisor + w.container.destroyers.length

theorem Inner.effort_lt (h : Inner w w') : w'.effort < w.effort := by
  cases h with
  | task h => exact Nat.add_lt_add_right (Closing.effort_thread h _) _
  | @close closing s h =>
    have hdestroyers : (w.proceed closing s).container.destroyers = w.container.destroyers := by
      unfold proceed
      split <;> rfl
    unfold effort
    rw [supervisor_proceed, hdestroyers]
    exact Nat.add_lt_add_right (Closing.effort_step h) _
  | destroy hexited h =>
    refine Nat.add_lt_add_left ?_ _
    rw [h]
    exact Nat.lt_succ_self _

/-- The one who closes cancels first. -/
def Cancels (w : Draining) : Prop :=
  w.closing = .cancel ∨ w.supervisor.cancelled

theorem Step.cancels (hs : Step w w') (h : w.Cancels) : w'.Cancels := by
  cases hs with
  | task hm =>
    refine h.imp_right fun hc => ?_
    exact hm.cancelled.trans hc
  | enter script => exact h
  | record _ => exact h
  | cancel => exact .inr rfl
  | close hc =>
    refine .inr ?_
    rw [supervisor_proceed]
    have hc' := Closing.step_cases hc
    obtain ⟨-, -, rfl⟩ | ⟨hw, -, -, rfl⟩ | ⟨hw, -, -, rfl⟩ | ⟨hw, -, rfl⟩ | ⟨x, ws, hw, -, -, rfl⟩ := hc'
    · rfl
    all_goals exact h.resolve_left (by rw [hw]; exact nofun)
  | destroy _ _ => exact h

/-- The one who closes waits only for a task that can go on. -/
theorem exists_inner (h : w.Cancels) (hstuck : w.closing.step w.supervisor = none) :
    w.closing = .exited ∨ ∃ t s, w.supervisor.step t = some s := by
  rcases Closing.step_eq_none hstuck with hexited | ⟨t, ws, hjoin, hbusy⟩
  · exact .inl hexited
  · have hc : w.supervisor.cancelled := h.resolve_left (by rw [hjoin]; exact nofun)
    exact .inr ⟨t, Supervisor.exists_step hc hbusy⟩

/-- Where nothing goes on by itself, the container is closed and all tasks are finished. -/
theorem closed_of_stuck (h : w.Cancels) (hstuck : ∀ w', ¬ Inner w w') :
    w.closing = .exited ∧ w.container.destroyers = [] ∧ ∀ t, w.supervisor.isFinished t := by
  have hthreads : ∀ t s, w.supervisor.step t ≠ some s := fun t s ht => hstuck _ (.task ht)
  have hclosing : w.closing.step w.supervisor = none :=
    Option.eq_none_iff_forall_ne_some.mpr fun ⟨closing, s⟩ hc => hstuck _ (.close hc)
  have hexited : w.closing = .exited :=
    (exists_inner h hclosing).resolve_right fun ⟨t, s, ht⟩ => hthreads t s ht
  have hc : w.supervisor.cancelled := h.resolve_left (by rw [hexited]; exact nofun)
  refine ⟨hexited, ?_, fun t => ?_⟩
  · cases hd : w.container.destroyers with
    | nil => rfl
    | cons b rest => exact absurd (.destroy hexited hd) (hstuck _)
  · cases ht : w.supervisor.isFinished t with
    | true => rfl
    | false =>
      obtain ⟨s, hs⟩ := Supervisor.exists_step hc (Supervisor.busy_iff.mpr ht)
      exact absurd hs (hthreads t s)

/-! ### What the container does itself -/

/-- To let the threads run is an interleaving. -/
theorem run_runs : ∀ (n : Nat) (w : Draining),
    ∃ ps, Runs w (w.supervise (w.supervisor.run n) ps)
  | 0, w => ⟨w.parents, .refl⟩
  | n + 1, w => by
    unfold Supervisor.run
    cases hstep : w.supervisor.firstStep with
    | none => exact ⟨w.parents, .refl⟩
    | some s =>
      obtain ⟨t, ht⟩ := Supervisor.step_of_firstStep hstep
      obtain ⟨ps, hps⟩ := run_runs n (w.follow t s)
      exact ⟨ps, hps.head (.task (Supervisor.moves_of_step ht))⟩

/-- So is what the container does to spawn a task, and the start of the task is over then. -/
theorem spawn_runs (h : w.Tracked) (script : Script) :
    ∃ w', Runs w w' ∧ w'.Returned w.parents.length ∧
      w.container.spawn script = w'.container.note (.taskSpawned w.parents.length) := by
  rw [h.length]
  let new := w.supervisor.threads.length
  let v := (w.enter script).record new
  have hnew : new ∉ w.entering := fun hin => by
    have hlt := (List.getElem?_eq_some_iff.mp (h.entered _ hin)).1
    rw [h.length] at hlt
    exact Nat.lt_irrefl _ hlt
  have hentering : v.entering = w.entering := by
    show (w.entering ++ [new]).erase new = w.entering
    rw [List.erase_append_right _ hnew, List.erase_cons_head, List.append_nil]
  have hv : Runs w v := (ReflTransGen.single (.enter script)).tail
    (.record (List.mem_append_right _ List.mem_cons_self))
  have htracked : v.Tracked := h.runs hv
  have hparent : v.parents[new]? = some none := by
    show (w.parents ++ [none])[w.supervisor.threads.length]? = _
    rw [← h.length]
    exact List.getElem?_concat_length ..
  have hreturned : v.Returned new :=
    ⟨(List.getElem?_eq_some_iff.mp hparent).1, hentering ▸ hnew,
      fun p hp => nomatch (htracked.child p new hp).symm.trans hparent⟩
  obtain ⟨ps, hps⟩ := run_runs v.supervisor.size v
  exact ⟨_, hv.trans hps, hreturned.runs htracked hps, rfl⟩

/-- So is what it does to cancel the context. -/
theorem cancel_runs (w : Draining) : ∃ w', Runs w w' ∧ w.container.cancel = w'.container := by
  obtain ⟨ps, hps⟩ := run_runs { w.supervisor with cancelled := true }.size
    (w.supervise { w.supervisor with cancelled := true } w.parents)
  exact ⟨_, hps.head .cancel, rfl⟩

/-- The one who closes, and the threads while it waits, up to where it finds no handle. -/
theorem exits : ∀ (n : Nat) (w : Draining), w.Cancels → w.closing.effort w.supervisor ≤ n →
    ∃ w', Runs w w' ∧ w'.closing = .exited ∧ w'.container = { w.container with
      supervisor := w.closing.run n w.supervisor
      progress := if w.closing = .exited then w.container.progress
        else w.container.progress.note .tasksExited }
  | 0, w, _, hn => by
    have hexited : w.closing = .exited := by
      have hstage : w.closing.stage = 0 := by
        unfold Closing.effort at hn
        omega
      cases hw : w.closing with
      | exited => rfl
      | _ =>
        rw [hw] at hstage
        cases hstage
    exact ⟨w, .refl, hexited, by rw [if_pos hexited]; rfl⟩
  | n + 1, w, h, hn => by
    unfold Closing.run
    cases hc : w.closing.step w.supervisor with
    | some x =>
      obtain ⟨closing, s⟩ := x
      have hne : w.closing ≠ .exited := fun hw => by
        rw [hw] at hc
        cases hc
      have hless := Closing.effort_step hc
      have hrest : closing.effort (w.proceed closing s).supervisor ≤ n := by
        rw [supervisor_proceed]
        omega
      obtain ⟨w', hr, hexited, hcontainer⟩ :=
        exits n (w.proceed closing s) (Step.cancels (.close hc) h) hrest
      refine ⟨w', hr.head (.close hc), hexited, ?_⟩
      rw [if_neg hne, hcontainer, supervisor_proceed]
      by_cases hdone : closing = .exited
      · subst hdone
        rfl
      · rw [container_proceed hdone]
        exact congrArg (fun p => { w.container with
          supervisor := closing.run n s, progress := p }) (if_neg hdone)
    | none =>
      dsimp only
      cases hstep : w.supervisor.firstStep with
      | some s =>
        obtain ⟨t, ht⟩ := Supervisor.step_of_firstStep hstep
        have hless := Closing.effort_thread ht w.closing
        obtain ⟨w', hr, hexited, hcontainer⟩ := exits n (w.follow t s)
          (Step.cancels (.task (Supervisor.moves_of_step ht)) h)
          (show w.closing.effort s ≤ n by omega)
        exact ⟨w', hr.head (.task (Supervisor.moves_of_step ht)), hexited, hcontainer⟩
      | none =>
        have hexited : w.closing = .exited := (exists_inner h hc).resolve_right fun ⟨t, s, ht⟩ => by
          rw [Supervisor.firstStep_eq_none hstep t] at ht
          cases ht
        exact ⟨w, .refl, hexited, by rw [if_pos hexited]⟩

/-- Then the destroyers run one by one. -/
theorem tearsDown : ∀ (ds : List Nat) (w : Draining), w.closing = .exited →
    w.container.destroyers = ds → ∃ w', Runs w w' ∧ w'.closing = .exited ∧
      w'.container = { w.container with
        destroyers := [], progress := ds.foldl w.container.plan.tearDown w.container.progress }
  | [], w, hexited, hd =>
    ⟨w, .refl, hexited, congrArg (fun ds => { w.container with destroyers := ds }) hd⟩
  | b :: ds, w, hexited, hd => by
    obtain ⟨w', hr, hexited', hcontainer⟩ := tearsDown ds (w.tearDown b ds) hexited rfl
    exact ⟨w', hr.head (.destroy hexited hd), hexited', hcontainer⟩

/-- What the container does to close is an interleaving, in which the one who closes comes to
its end. -/
theorem close_runs (hphase : w.container.phase = .refreshed) (hw : w.closing = .cancel) :
    ∃ w', Runs w w' ∧ w'.closing = .exited ∧
      w.container.close = (.ok (), w'.container.note .closed) := by
  have heffort : w.closing.effort w.supervisor ≤
      3 * w.supervisor.handles.length + 4 * w.supervisor.size + 3 := by
    unfold Closing.effort
    rw [hw, Closing.stage]
    omega
  obtain ⟨v, hv, hexited, hcontainer⟩ := exits _ w (.inl hw) heffort
  rw [hw, if_neg (by decide)] at hcontainer
  obtain ⟨w', hr, hexited', hcontainer'⟩ := tearsDown v.container.destroyers v hexited rfl
  refine ⟨w', hv.trans hr, hexited', ?_⟩
  rw [hcontainer', hcontainer]
  unfold Container.close
  split
  · rfl
  · rename_i hne
    exact absurd hphase hne

/-! ### Every interleaving -/

theorem Cancels.runs (h : w.Cancels) (hr : Runs w w') : w'.Cancels := by
  induction hr with
  | refl => exact h
  | tail _ hs ih => exact hs.cancels ih

/-- Where a task that descends from `t` is not finished, the one who closes is not done. -/
theorem Guarded.not_exited (h : Guarded t w) (hd : w.Descends t d)
    (hbusy : w.supervisor.isFinished d = false) : w.closing ≠ .exited :=
  fun he => h.finished he d hd (Supervisor.busy_iff.mpr hbusy)

/-- A task panics in one step, and is finished then. Whoever else could go on still can: the
other tasks, which are as they were, and the one who closes. -/
theorem panics {payload : Option String}
    (ht : w.supervisor.threads[t]? = some ⟨.panic payload, none⟩) :
    ∃ s, w.supervisor.step t = some s ∧ s.isFinished t ∧
      (∀ u ≠ t, s.threads[u]? = w.supervisor.threads[u]? ∧
        (s.step u).isSome = (w.supervisor.step u).isSome) ∧
      ((w.closing.step w.supervisor).isSome → (w.closing.step s).isSome) := by
  obtain ⟨s, hstep, hfinished, -, hcancelled, hother⟩ := Supervisor.step_panic ht
  refine ⟨s, hstep, hfinished, fun u hu => ⟨hother u hu, ?_⟩, Closing.isSome_step fun u hu => ?_⟩
  · exact Supervisor.isSome_step_congr (hother u hu) hcancelled
  · by_cases hut : u = t
    · exact hut ▸ hfinished
    · rw [Supervisor.isFinished, hother u hut]
      exact hu

/-- Close waits for the whole tree of tasks, in every interleaving. A task whose start is over
before close has come to an end is waited for, with all tasks that it starts, and that these
start, at whatever time: as long as one of them is not finished, the container is as it was.
A panic is the end of a task and stops nobody. Close always comes to an end, by itself, with
all tasks finished and no destroyer left. What `spawn`, `cancel` and `close` of the container do
are such interleavings, and the start of a task is over when `spawn` is. -/
theorem close_waits_for_tree {c : Container} (h : c.supervisor = .start) (hr : Runs (begin c) w) :
    (∀ t, w.Returned t → w.closing ≠ .exited → ∀ w', Runs w w' → ∀ d, w'.Descends t d →
      w'.supervisor.isFinished d = false → w'.closing ≠ .exited ∧
        w'.container.destroyers = w.container.destroyers ∧
        w'.container.progress = w.container.progress) ∧
    (∀ t payload, w.supervisor.threads[t]? = some ⟨.panic payload, none⟩ →
      ∃ s, w.supervisor.step t = some s ∧ s.isFinished t ∧
        (∀ u ≠ t, s.threads[u]? = w.supervisor.threads[u]? ∧
          (s.step u).isSome = (w.supervisor.step u).isSome) ∧
        ((w.closing.step w.supervisor).isSome → (w.closing.step s).isSome)) ∧
    (∀ w', Inner w w' → Step w w' ∧ w'.effort < w.effort) ∧
    ((∀ w', ¬ Inner w w') → w.closing = .exited ∧ w.container.destroyers = [] ∧
      ∀ t, w.supervisor.isFinished t) ∧
    (∀ script, ∃ w', Runs w w' ∧ w'.Returned w.parents.length ∧
      w.container.spawn script = w'.container.note (.taskSpawned w.parents.length)) ∧
    (∃ w', Runs w w' ∧ w.container.cancel = w'.container) ∧
    (w.container.phase = .refreshed → w.closing = .cancel → ∃ w', Runs w w' ∧
      w'.closing = .exited ∧ w.container.close = (.ok (), w'.container.note .closed)) := by
  have htracked : w.Tracked := (tracked_begin h).runs hr
  have hcancels : w.Cancels := Cancels.runs (.inl rfl) hr
  refine ⟨fun t ht hexited w' hr' d hd hbusy => ?_, fun t payload => panics,
    fun w' hi => ⟨hi.step, hi.effort_lt⟩, closed_of_stuck hcancels, spawn_runs htracked,
    cancel_runs w, close_runs⟩
  have hguarded : Guarded t w := ⟨htracked, ht, fun he => absurd he hexited⟩
  have hexited' : w'.closing ≠ .exited := (hguarded.runs hr').not_exited hd hbusy
  exact ⟨hexited', untouched hr' hexited'⟩

/-- A task that waits for the end, and then starts another, which panics. -/
def family : Script :=
  .await (.spawn (.panic none) .finish)

/-- The one who closes has taken the handle of the first task before that task starts the
second. -/
theorem close_waits_for_tree_of_family :
    let c := { ((Container.empty .standard ⟨[]⟩).performAll Container.chain).2 with
      supervisor := .start }
    ∃ w w', Runs (begin c) w ∧ w.Returned 0 ∧ w.closing = .cancel ∧ Runs w w' ∧
      w'.Descends 0 1 ∧ w'.supervisor.isFinished 0 ∧ w'.supervisor.isFinished 1 = false ∧
      w'.closing = .join [1] ∧ w'.container.destroyers = w.container.destroyers ∧
      w.container.destroyers = [2, 0] := by
  intro c
  let w : Draining := ((begin c).enter family).record 0
  have hw : Runs (begin c) w := (ReflTransGen.single (.enter family)).tail (.record (.head _))
  have hreturned : w.Returned 0 := by
    refine ⟨Nat.zero_lt_one, List.not_mem_nil, fun p ⟨script, hp⟩ => ?_⟩
    match p, hp with
    | 0, hp => cases hp
  have hruns : ∃ w', Runs w w' ∧ w'.parents = [none, some 0] ∧ w'.supervisor.isFinished 0 ∧
      w'.supervisor.isFinished 1 = false ∧ w'.closing = .join [1] :=
    ⟨_, ReflTransGen.refl |>.tail (.close rfl) |>.tail (.close rfl)
      |>.tail (.task (t := 0) (Supervisor.moves_of_step rfl))
      |>.tail (.task (t := 0) (Supervisor.moves_of_step rfl))
      |>.tail (.task (t := 0) (Supervisor.moves_of_step rfl))
      |>.tail (.close rfl) |>.tail (.close rfl) |>.tail (.close rfl), rfl, rfl, rfl, rfl⟩
  obtain ⟨w', hr, hparents, hzero, hone, hclosing⟩ := hruns
  have hdescends : w'.Descends 0 1 := .single (by rw [hparents]; rfl)
  exact ⟨w, w', hw, hreturned, rfl, hr, hdescends, hzero, hone, hclosing,
    ((close_waits_for_tree rfl hw).1 0 hreturned nofun w' hr 1 hdescends hone).2.1, by decide +kernel⟩

end Draining
end Inversion
