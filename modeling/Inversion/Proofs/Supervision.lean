/-
# What a thread does

A thread that is not finished goes on with its script, which may end there; or it starts a
task, and then it can do nothing before it has recorded it (`Moves`). How its script goes on
is left open by this. So what is shown of all moves is true of tasks that decide as they go,
and of tasks that never finish.

`Supervisor.step` is one of these moves, and one that leaves less to do: together the threads
take no more steps than their scripts have (`cost_step`). Where the context is cancelled no
thread waits (`exists_step`). A panic is the end of a thread and of nothing else
(`step_panic`).
-/
import Inversion.Supervisor.Closing

namespace Inversion

namespace Supervisor

/-! ### Moves -/

/-- The task has been started and is not finished. -/
def Busy (s : Supervisor) (t : Nat) : Prop :=
  ∃ thread, s.threads[t]? = some thread ∧ thread.isFinished = false

/-- The task `p` has started `d`, and not recorded it yet. -/
def Starting (s : Supervisor) (p d : Nat) : Prop :=
  ∃ script, s.threads[p]? = some ⟨script, some d⟩

/-- What the thread of a task may do, whatever its script says. -/
inductive Moves (t : Nat) (s s' : Supervisor) : Prop
  | goes (script next : Script) (ht : s.threads[t]? = some ⟨script, none⟩) (hs : script ≠ .finish)
      (threads : s'.threads = s.threads.set t ⟨next, none⟩) (handles : s'.handles = s.handles)
      (cancelled : s'.cancelled = s.cancelled)
  | starts (script child next : Script) (ht : s.threads[t]? = some ⟨script, none⟩)
      (hs : script ≠ .finish)
      (threads : s'.threads = s.threads.set t ⟨next, some s.threads.length⟩ ++ [⟨child, none⟩])
      (handles : s'.handles = s.handles) (cancelled : s'.cancelled = s.cancelled)
  | records (script : Script) (child : Nat) (ht : s.threads[t]? = some ⟨script, some child⟩)
      (threads : s'.threads = s.threads.set t ⟨script, none⟩)
      (handles : s'.handles = s.handles ++ [child]) (cancelled : s'.cancelled = s.cancelled)

variable {s s' : Supervisor} {t p d : Nat}

theorem busy_iff : s.Busy t ↔ s.isFinished t = false := by
  unfold Busy isFinished
  cases s.threads[t]? <;> simp

theorem Starting.busy (h : s.Starting p d) : s.Busy p := by
  obtain ⟨script, hp⟩ := h
  exact ⟨_, hp, by simp [Thread.isFinished]⟩

theorem busy_of_script {script : Script} (ht : s.threads[t]? = some ⟨script, none⟩)
    (hs : script ≠ .finish) : s.Busy t :=
  ⟨_, ht, by simp [Thread.isFinished, hs]⟩

theorem Busy.lt (h : s.Busy t) : t < s.threads.length := by
  obtain ⟨thread, ht, -⟩ := h
  exact (List.getElem?_eq_some_iff.mp ht).1

theorem busy_congr (h : s'.threads = s.threads) : s'.Busy t ↔ s.Busy t := by
  unfold Busy
  rw [h]

theorem starting_congr (h : s'.threads = s.threads) : s'.Starting p d ↔ s.Starting p d := by
  unfold Starting
  rw [h]

/-- A task that is started from outside has done nothing yet. -/
theorem thread_launch {script : Script} {thread : Thread}
    (h : (s.launch script).threads[t]? = some thread) :
    s.threads[t]? = some thread ∨ t = s.threads.length ∧ thread.unrecorded = none := by
  rw [show (s.launch script).threads = s.threads ++ [⟨script, none⟩] from rfl,
    List.getElem?_append] at h
  split at h
  · exact .inl h
  · rw [List.getElem?_singleton] at h
    split at h
    · cases h
      exact .inr ⟨by omega, rfl⟩
    · cases h

theorem busy_launch {script : Script} (h : (s.launch script).Busy t) :
    s.Busy t ∨ t = s.threads.length := by
  obtain ⟨thread, ht, hbusy⟩ := h
  exact (thread_launch ht).imp (fun ht => ⟨thread, ht, hbusy⟩) And.left

theorem starting_launch {script : Script} (h : (s.launch script).Starting p d) :
    s.Starting p d := by
  obtain ⟨rest, hp⟩ := h
  rcases thread_launch hp with hp | ⟨-, hnone⟩
  · exact ⟨rest, hp⟩
  · cases hnone

theorem Starting.launch (h : s.Starting p d) (script : Script) : (s.launch script).Starting p d := by
  obtain ⟨rest, hp⟩ := h
  refine ⟨rest, ?_⟩
  rw [show (s.launch script).threads = s.threads ++ [⟨script, none⟩] from rfl,
    List.getElem?_append_left (List.getElem?_eq_some_iff.mp hp).1]
  exact hp

/-- A step of a thread goes on with its script, starts a task or records one. -/
theorem step_cases (h : s.step t = some s') :
    (∃ script next, s.threads[t]? = some ⟨script, none⟩ ∧ next.size < script.size ∧
      s'.threads = s.threads.set t ⟨next, none⟩ ∧ s'.handles = s.handles ∧
      s'.cancelled = s.cancelled) ∨
    (∃ child next, s.threads[t]? = some ⟨.spawn child next, none⟩ ∧
      s'.threads = s.threads.set t ⟨next, some s.threads.length⟩ ++ [⟨child, none⟩] ∧
      s'.handles = s.handles ∧ s'.cancelled = s.cancelled) ∨
    ∃ script child, s.threads[t]? = some ⟨script, some child⟩ ∧
      s'.threads = s.threads.set t ⟨script, none⟩ ∧ s'.handles = s.handles ++ [child] ∧
      s'.cancelled = s.cancelled := by
  unfold step at h
  match ht : s.threads[t]? with
  | none =>
    rw [ht] at h
    cases h
  | some ⟨script, some child⟩ =>
    rw [ht] at h
    cases h
    exact .inr (.inr ⟨script, child, rfl, rfl, rfl, rfl⟩)
  | some ⟨.finish, none⟩ =>
    rw [ht] at h
    cases h
  | some ⟨.panic payload, none⟩ =>
    rw [ht] at h
    cases h
    exact .inl ⟨_, .finish, rfl, Nat.zero_lt_one, rfl, rfl, rfl⟩
  | some ⟨.await next, none⟩ =>
    rw [ht] at h
    dsimp only at h
    split at h
    · cases h
      exact .inl ⟨_, next, rfl, Nat.lt_succ_self _, rfl, rfl, rfl⟩
    · cases h
  | some ⟨.record label next, none⟩ =>
    rw [ht] at h
    cases h
    exact .inl ⟨_, next, rfl, Nat.lt_succ_self _, rfl, rfl, rfl⟩
  | some ⟨.spawn child next, none⟩ =>
    rw [ht] at h
    cases h
    exact .inr (.inl ⟨child, next, rfl, rfl, rfl, rfl⟩)

theorem moves_of_step (h : s.step t = some s') : s.Moves t s' := by
  obtain ⟨script, next, ht, hsize, hthreads, hhandles, hcancelled⟩ |
    ⟨child, next, ht, hthreads, hhandles, hcancelled⟩ |
    ⟨script, child, ht, hthreads, hhandles, hcancelled⟩ := step_cases h
  · refine .goes script next ht (fun hs => ?_) hthreads hhandles hcancelled
    rw [hs] at hsize
    cases hsize
  · exact .starts _ child next ht nofun hthreads hhandles hcancelled
  · exact .records script child ht hthreads hhandles hcancelled

namespace Moves

variable (h : s.Moves t s')
include h

theorem busy_mover : s.Busy t := by
  cases h with
  | goes script next ht hs => exact busy_of_script ht hs
  | starts script child next ht hs => exact busy_of_script ht hs
  | records script child ht => exact Starting.busy ⟨script, ht⟩

theorem cancelled : s'.cancelled = s.cancelled := by
  cases h <;> assumption

theorem handles (hd : d ∈ s.handles) : d ∈ s'.handles := by
  cases h with
  | goes _ _ _ _ _ handles => rwa [handles]
  | starts _ _ _ _ _ _ handles => rwa [handles]
  | records _ _ _ _ handles =>
    rw [handles]
    exact List.mem_append_left _ hd

/-- A move starts one task or none. -/
theorem length : s'.threads.length = s.threads.length ∨
    s'.threads.length = s.threads.length + 1 ∧ s'.Starting t s.threads.length := by
  have hlt := h.busy_mover.lt
  cases h with
  | goes _ _ _ _ threads => exact .inl (by rw [threads, List.length_set])
  | records _ _ _ threads => exact .inl (by rw [threads, List.length_set])
  | starts _ _ next _ _ threads =>
    refine .inr ⟨by simp [threads], next, ?_⟩
    rw [threads, List.getElem?_append_left (by simpa using hlt), List.getElem?_set_self hlt]

/-- The threads beside the one that moves are as before, but for the one that it starts. -/
theorem thread (hdt : d ≠ t) {thread : Thread} (hd : s'.threads[d]? = some thread) :
    s.threads[d]? = some thread ∨
      d = s.threads.length ∧ s'.Starting t d ∧ thread.unrecorded = none := by
  cases h with
  | goes _ _ _ _ threads =>
    rw [threads, List.getElem?_set_ne (Ne.symm hdt)] at hd
    exact .inl hd
  | records _ _ _ threads =>
    rw [threads, List.getElem?_set_ne (Ne.symm hdt)] at hd
    exact .inl hd
  | starts script child next ht hs threads =>
    have hlt : t < s.threads.length := (busy_of_script ht hs).lt
    by_cases hlen : d < s.threads.length
    · rw [threads, List.getElem?_append_left (by simpa using hlen),
        List.getElem?_set_ne (Ne.symm hdt)] at hd
      exact .inl hd
    · rw [threads, List.getElem?_append_right (by simpa using hlen), List.length_set,
        List.getElem?_singleton] at hd
      split at hd
      · have hnew : d = s.threads.length := by omega
        cases hd
        refine .inr ⟨hnew, ⟨next, ?_⟩, rfl⟩
        rw [threads, List.getElem?_append_left (by simpa using hlt), List.getElem?_set_self hlt, hnew]
      · cases hd

/-- The thread that moves starts no task but the new one. -/
theorem starting_self (hd : s'.Starting t d) :
    d = s.threads.length ∧ s'.threads.length = s.threads.length + 1 := by
  obtain ⟨script, hd⟩ := hd
  have hlt := h.busy_mover.lt
  cases h with
  | goes _ _ _ _ threads =>
    rw [threads, List.getElem?_set_self hlt] at hd
    cases hd
  | records _ _ _ threads =>
    rw [threads, List.getElem?_set_self hlt] at hd
    cases hd
  | starts _ _ _ _ _ threads =>
    rw [threads, List.getElem?_append_left (by simpa using hlt), List.getElem?_set_self hlt] at hd
    cases hd
    exact ⟨rfl, by simp [threads]⟩

theorem busy (hd : s'.Busy d) : s.Busy d ∨ d = s.threads.length ∧ s'.Starting t d := by
  by_cases hdt : d = t
  · exact .inl (hdt ▸ h.busy_mover)
  · obtain ⟨thread, hthread, hbusy⟩ := hd
    rcases h.thread hdt hthread with hold | ⟨hnew, hstarting, -⟩
    · exact .inl ⟨thread, hold, hbusy⟩
    · exact .inr ⟨hnew, hstarting⟩

theorem starting (hd : s'.Starting p d) :
    s.Starting p d ∨ p = t ∧ d = s.threads.length ∧ s'.threads.length = s.threads.length + 1 := by
  by_cases hpt : p = t
  · exact .inr ⟨hpt, h.starting_self (hpt ▸ hd)⟩
  · obtain ⟨script, hd⟩ := hd
    rcases h.thread hpt hd with hold | ⟨-, -, hnone⟩
    · exact .inl ⟨script, hold⟩
    · cases hnone

/-- A task that is being started is still so behind a move, or has been recorded. -/
theorem stays (hd : s.Starting p d) : s'.Starting p d ∨ d ∈ s'.handles := by
  obtain ⟨script, hp⟩ := hd
  by_cases hpt : p = t
  · subst hpt
    cases h with
    | goes _ _ ht => cases hp.symm.trans ht
    | starts _ _ _ ht => cases hp.symm.trans ht
    | records _ _ ht _ handles =>
      cases hp.symm.trans ht
      exact .inr (by simp [handles])
  · have hlt : p < s.threads.length := (List.getElem?_eq_some_iff.mp hp).1
    refine .inl ⟨script, ?_⟩
    cases h with
    | goes _ _ _ _ threads => rwa [threads, List.getElem?_set_ne (Ne.symm hpt)]
    | records _ _ _ threads => rwa [threads, List.getElem?_set_ne (Ne.symm hpt)]
    | starts _ _ _ _ _ threads =>
      rwa [threads, List.getElem?_append_left (by simpa using hlt),
        List.getElem?_set_ne (Ne.symm hpt)]

end Moves

/-! ### Scripts come to an end -/

/-- How many steps a thread takes at most. -/
def cost (thread : Thread) : Nat :=
  thread.script.size + if thread.unrecorded.isSome then 1 else 0

/-- How many steps the threads take at most. -/
def costs : List Thread → Nat
  | [] => 0
  | thread :: threads => cost thread + costs threads

theorem size_eq_costs (s : Supervisor) : s.size = costs s.threads := by
  unfold size
  induction s.threads with
  | nil => rfl
  | cons thread threads ih => rw [List.foldr_cons, ih, costs, cost]

theorem costs_append (threads threads' : List Thread) :
    costs (threads ++ threads') = costs threads + costs threads' := by
  induction threads with
  | nil => exact (Nat.zero_add _).symm
  | cons thread threads ih => rw [List.cons_append, costs, costs, ih, Nat.add_assoc]

theorem costs_set {thread : Thread} {threads : List Thread} {n : Nat}
    (h : threads[n]? = some thread) (thread' : Thread) :
    costs (threads.set n thread') + cost thread = costs threads + cost thread' := by
  induction threads generalizing n with
  | nil => cases h
  | cons first threads ih =>
    cases n with
    | zero =>
      cases h
      simp only [List.set_cons_zero, costs]
      omega
    | succ n =>
      have hrest := ih (show threads[n]? = some thread from h)
      simp only [List.set_cons_succ, costs]
      omega

/-- A step of a thread leaves less to do, with the handle that it may record. -/
theorem cost_step (h : s.step t = some s') :
    4 * s'.size + 3 * s'.handles.length < 4 * s.size + 3 * s.handles.length := by
  simp only [size_eq_costs]
  obtain ⟨script, next, ht, hsize, hthreads, hhandles, -⟩ | ⟨child, next, ht, hthreads, hhandles, -⟩ |
    ⟨script, child, ht, hthreads, hhandles, -⟩ := step_cases h
  · have hcost := costs_set ht ⟨next, none⟩
    simp only [cost, Option.isSome_none, Bool.false_eq_true, if_false] at hcost
    rw [hhandles, hthreads]
    omega
  · have hcost := costs_set ht ⟨next, some s.threads.length⟩
    simp only [cost, Option.isSome_none, Option.isSome_some, Bool.false_eq_true, if_false, if_true,
      Script.size] at hcost
    rw [hhandles, hthreads, costs_append]
    simp only [costs, cost, Option.isSome_none, Bool.false_eq_true, if_false]
    omega
  · have hcost := costs_set ht ⟨script, none⟩
    simp only [cost, Option.isSome_none, Option.isSome_some, Bool.false_eq_true, if_false,
      if_true] at hcost
    rw [hhandles, hthreads, List.length_append, List.length_singleton]
    omega

/-- Where the context is cancelled, no thread waits. -/
theorem exists_step (hc : s.cancelled) (h : s.Busy t) : ∃ s', s.step t = some s' := by
  obtain ⟨⟨script, unrecorded⟩, ht, hbusy⟩ := h
  unfold step
  rw [ht]
  cases unrecorded with
  | some child => exact ⟨_, rfl⟩
  | none =>
    cases script with
    | finish => cases hbusy
    | await next => exact ⟨_, if_pos hc⟩
    | _ => exact ⟨_, rfl⟩

theorem step_of_firstStep (h : s.firstStep = some s') : ∃ t, s.step t = some s' := by
  obtain ⟨t, -, ht⟩ := List.exists_of_findSome?_eq_some h
  exact ⟨t, ht⟩

theorem firstStep_eq_none (h : s.firstStep = none) (t : Nat) : s.step t = none := by
  by_cases ht : t < s.threads.length
  · exact List.findSome?_eq_none_iff.mp h t (List.mem_range.mpr ht)
  · rw [step, List.getElem?_eq_none (Nat.le_of_not_lt ht)]

/-- A panic ends its thread, and changes nothing that another thread or the one who closes
looks at. -/
theorem step_panic {payload : Option String} (ht : s.threads[t]? = some ⟨.panic payload, none⟩) :
    ∃ s', s.step t = some s' ∧ s'.isFinished t ∧ s'.handles = s.handles ∧
      s'.cancelled = s.cancelled ∧ ∀ u ≠ t, s'.threads[u]? = s.threads[u]? := by
  have hlt : t < s.threads.length := (List.getElem?_eq_some_iff.mp ht).1
  refine ⟨{ s.setThread t ⟨.finish, none⟩ with lines := ("ERROR Supervised task panicked task=" ++
      toString t ++ " panic=" ++ panicText payload) :: s.lines }, by rw [step, ht], ?_, rfl, rfl,
    fun u hu => List.getElem?_set_ne (Ne.symm hu)⟩
  show ((s.threads.set t ⟨.finish, none⟩)[t]?).all Thread.isFinished
  rw [List.getElem?_set_self hlt]
  rfl

/-- Whether a thread can go on depends on itself and on the context. -/
theorem isSome_step_congr (ht : s'.threads[t]? = s.threads[t]?) (hc : s'.cancelled = s.cancelled) :
    (s'.step t).isSome = (s.step t).isSome := by
  unfold step
  rw [ht]
  rcases s.threads[t]? with - | ⟨script, - | child⟩
  · rfl
  · cases script with
    | await next =>
      show (if s'.cancelled then some _ else none).isSome = (if s.cancelled then some _ else none).isSome
      rw [hc]
      split <;> rfl
    | _ => rfl
  · rfl

end Supervisor

/-! ### The one who closes -/

namespace Closing

variable {c c' : Closing} {s s' : Supervisor}

/-- The handles that have been taken and not been waited for yet. -/
def waiting : Closing → List Nat
  | join ws => ws
  | _ => []

theorem step_collect (s : Supervisor) : collect.step s =
    if s.handles = [] then some (exited, s) else some (join s.handles, { s with handles := [] }) :=
  rfl

theorem step_join (t : Nat) (ws : List Nat) (s : Supervisor) :
    (join (t :: ws)).step s = if s.isFinished t then some (join ws, s) else none :=
  rfl

theorem step_cases (h : c.step s = some (c', s')) :
    (c = .cancel ∧ c' = .collect ∧ s' = { s with cancelled := true }) ∨
    (c = .collect ∧ s.handles = [] ∧ c' = .exited ∧ s' = s) ∨
    (c = .collect ∧ s.handles ≠ [] ∧ c' = .join s.handles ∧ s' = { s with handles := [] }) ∨
    (c = .join [] ∧ c' = .collect ∧ s' = s) ∨
    ∃ t ws, c = .join (t :: ws) ∧ s.isFinished t ∧ c' = .join ws ∧ s' = s := by
  match c with
  | .cancel =>
    cases h
    exact .inl ⟨rfl, rfl, rfl⟩
  | .collect =>
    rw [step_collect] at h
    split at h
    · rename_i hnone
      cases h
      exact .inr (.inl ⟨rfl, hnone, rfl, rfl⟩)
    · rename_i hsome
      cases h
      exact .inr (.inr (.inl ⟨rfl, hsome, rfl, rfl⟩))
  | .join [] =>
    cases h
    exact .inr (.inr (.inr (.inl ⟨rfl, rfl, rfl⟩)))
  | .join (t :: ws) =>
    rw [step_join] at h
    split at h
    · rename_i hfinished
      cases h
      exact .inr (.inr (.inr (.inr ⟨t, ws, rfl, hfinished, rfl, rfl⟩)))
    · cases h
  | .exited => cases h

/-- The one who closes leaves the threads alone. -/
theorem threads_step (h : c.step s = some (c', s')) : s'.threads = s.threads := by
  obtain ⟨-, -, rfl⟩ | ⟨-, -, -, rfl⟩ | ⟨-, -, -, rfl⟩ | ⟨-, -, rfl⟩ | ⟨t, ws, -, -, -, rfl⟩ :=
    step_cases h <;> rfl

/-- The one who closes goes on, or is done, or waits for a task that is not finished. -/
theorem step_eq_none (h : c.step s = none) :
    c = .exited ∨ ∃ t ws, c = .join (t :: ws) ∧ s.Busy t := by
  match c with
  | .cancel => cases h
  | .collect =>
    rw [step_collect] at h
    split at h <;> cases h
  | .join [] => cases h
  | .join (t :: ws) =>
    rw [step_join] at h
    split at h
    · cases h
    · rename_i hbusy
      exact .inr ⟨t, ws, rfl, Supervisor.busy_iff.mpr (Bool.eq_false_iff.mpr hbusy)⟩
  | .exited => exact .inl rfl

/-- The one who closes is not kept by tasks that have finished meanwhile. -/
theorem isSome_step (hfinished : ∀ t, s.isFinished t → s'.isFinished t)
    (h : (c.step s).isSome) : (c.step s').isSome := by
  match c with
  | .cancel => rfl
  | .collect =>
    rw [step_collect]
    split <;> rfl
  | .join [] => rfl
  | .join (t :: ws) =>
    rw [step_join] at h
    split at h
    · rename_i ht
      rw [step_join, if_pos (hfinished t ht)]
      rfl
    · cases h
  | .exited => cases h

/-- How many steps there are left for the one who closes, beside those for the handles that
are recorded. -/
def stage : Closing → Nat
  | cancel => 2
  | collect => 1
  | join ws => ws.length + 2
  | exited => 0

/-- How many steps the threads and the one who closes take at most. -/
def effort (c : Closing) (s : Supervisor) : Nat :=
  4 * s.size + 3 * s.handles.length + c.stage

theorem effort_step (h : c.step s = some (c', s')) : c'.effort s' < c.effort s := by
  have hsize : s'.size = s.size := by
    unfold Supervisor.size
    rw [threads_step h]
  unfold effort
  rw [hsize]
  obtain ⟨rfl, rfl, rfl⟩ | ⟨rfl, -, rfl, rfl⟩ | ⟨rfl, hsome, rfl, rfl⟩ | ⟨rfl, rfl, rfl⟩ |
    ⟨t, ws, rfl, -, rfl, rfl⟩ := step_cases h
  · simp [stage]
  · simp [stage]
  · have hpos : 0 < s.handles.length := List.length_pos_iff.mpr hsome
    simp only [stage, List.length_nil]
    omega
  · simp [stage]
  · simp [stage]

theorem effort_thread {t : Nat} (h : s.step t = some s') (c : Closing) : c.effort s' < c.effort s :=
  Nat.add_lt_add_right (Supervisor.cost_step h) _

end Closing
end Inversion
