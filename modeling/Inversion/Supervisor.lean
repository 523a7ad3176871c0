/-
# Supervised tasks

Tasks run beside the container, each on a thread of its own, and share one
context that can be cancelled. A task does what its script says: it waits for the
context to be cancelled, records that it got there, spawns further tasks, and
finishes or panics. The handle of a task is recorded by the one who spawned it,
after the task has started.

`Supervisor.step` is one step of one thread; the threads may take their steps in
any order. `settle` is the schedule in which the first thread that can go on
always does, up to the point where none can.
-/

namespace Inversion

inductive Script where
  | finish
  /-- Panics with a text, or with something that is none. -/
  | panic (payload : Option String)
  | await (next : Script)
  | record (label : String) (next : Script)
  | spawn (child : Script) (next : Script)
  deriving DecidableEq, Repr, Inhabited

/-- How many steps a script takes at most, those of the tasks it spawns
included. -/
def Script.size : Script → Nat
  | finish => 0
  | panic _ => 1
  | await next => next.size + 1
  | record _ next => next.size + 1
  | spawn child next => child.size + next.size + 2

/-- A thread: what is left of its script, and a task that it has started and not
recorded yet. -/
structure Thread where
  script : Script
  unrecorded : Option Nat
  deriving DecidableEq, Repr, Inhabited

def Thread.isFinished (t : Thread) : Bool :=
  t.script = .finish && t.unrecorded.isNone

structure Supervisor where
  threads : List Thread
  /-- The recorded tasks that nobody has waited for yet. -/
  handles : List Nat
  cancelled : Bool
  /-- What tasks have recorded, the latest first. -/
  records : List String
  /-- The lines that the threads of tasks have logged, the latest first. -/
  lines : List String
  deriving DecidableEq, Repr, Inhabited

namespace Supervisor

def start : Supervisor :=
  ⟨[], [], false, [], []⟩

def threadName (task : Nat) : String :=
  "beanery-task-" ++ toString task

def panicText (payload : Option String) : String :=
  payload.getD "Box<dyn Any>"

/-- Starts a task; its number is the count of those started before. -/
def launch (script : Script) (s : Supervisor) : Supervisor :=
  { s with threads := s.threads ++ [⟨script, none⟩] }

def recordHandle (task : Nat) (s : Supervisor) : Supervisor :=
  { s with handles := s.handles ++ [task] }

def setThread (task : Nat) (t : Thread) (s : Supervisor) : Supervisor :=
  { s with threads := s.threads.set task t }

/-- The next step of a thread, if it has one and need not wait. -/
def step (task : Nat) (s : Supervisor) : Option Supervisor :=
  match s.threads[task]? with
  | none => none
  | some ⟨script, some child⟩ =>
    let s := (s.recordHandle child).setThread task ⟨script, none⟩
    some { s with lines := ("DEBUG Task spawned task=" ++ toString child) :: s.lines }
  | some ⟨script, none⟩ =>
    match script with
    | .finish => none
    | .panic payload =>
      let line := "ERROR Supervised task panicked task=" ++ toString task ++ " panic=" ++
        panicText payload
      some { s.setThread task ⟨.finish, none⟩ with lines := line :: s.lines }
    | .await next => if s.cancelled then some (s.setThread task ⟨next, none⟩) else none
    | .record label next =>
      let entry := "task " ++ label ++ " on " ++ threadName task
      some { s.setThread task ⟨next, none⟩ with records := entry :: s.records }
    | .spawn child next =>
      some ((s.setThread task ⟨next, some s.threads.length⟩).launch child)

/-- How many steps all threads take at most. -/
def size (s : Supervisor) : Nat :=
  s.threads.foldr (fun t n => t.script.size + (if t.unrecorded.isSome then 1 else 0) + n) 0

/-- The step of the first thread that can take one. -/
def firstStep (s : Supervisor) : Option Supervisor :=
  (List.range s.threads.length).findSome? fun task => s.step task

def run : Nat → Supervisor → Supervisor
  | 0, s => s
  | n + 1, s =>
    match s.firstStep with
    | some t => run n t
    | none => s

/-- Lets the threads run until each is finished or waits. -/
def settle (s : Supervisor) : Supervisor :=
  s.run s.size

/-- Spawns a task from outside of any task. -/
def spawn (script : Script) (s : Supervisor) : Supervisor :=
  ((s.launch script).recordHandle s.threads.length).settle

def isFinished (s : Supervisor) (task : Nat) : Bool :=
  (s.threads[task]?).all Thread.isFinished

/-- The number of recorded tasks that are not finished. -/
def active (s : Supervisor) : Nat :=
  (s.handles.filter fun task => !s.isFinished task).length

def cancel (s : Supervisor) : Supervisor :=
  { s with cancelled := true }.settle

end Supervisor
end Inversion
