/-
# Closing a supervisor

The one who closes cancels the context, takes the handles that are recorded by
then, waits for the task of each, and starts over until there are no handles to
take. A task that spawns another records the handle of it before it finishes, so
the tasks that are spawned meanwhile are waited for as well.

`Closing.step` is one step of the one who closes; the steps of the threads may
come in between in any order. `shutDown` is the schedule in which the one who
closes goes on whenever it can, and otherwise the first thread that can.
-/
import Inversion.Supervisor

namespace Inversion

/-- What the one who closes does next. -/
inductive Closing where
  | cancel
  | collect
  | join (waiting : List Nat)
  | exited
  deriving DecidableEq, Repr, Inhabited

namespace Closing

/-- The next step, unless it has to wait or is done. -/
def step : Closing → Supervisor → Option (Closing × Supervisor)
  | cancel, s => some (collect, { s with cancelled := true })
  | collect, s =>
    if s.handles = [] then some (exited, s) else some (join s.handles, { s with handles := [] })
  | join [], s => some (collect, s)
  | join (task :: waiting), s => if s.isFinished task then some (join waiting, s) else none
  | exited, _ => none

/-- At most `n` steps, of the one who closes or else of the first thread. -/
def run : Nat → Closing → Supervisor → Supervisor
  | 0, _, s => s
  | n + 1, c, s =>
    match c.step s with
    | some (c, s) => run n c s
    | none =>
      match s.firstStep with
      | some s => run n c s
      | none => s

end Closing

namespace Supervisor

/-- Cancels the context and waits for all tasks. A handle is taken and waited
for in at most three steps, and each step of a thread records at most one. -/
def shutDown (s : Supervisor) : Supervisor :=
  Closing.run (3 * s.handles.length + 4 * s.size + 3) .cancel s

end Supervisor
end Inversion
