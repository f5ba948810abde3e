/-! What the scheduler keeps of a task, and `task_unblock` on it: it looks at the state,
sets `runnable`, sets the state and enqueues the task, with no lock that the task has when
it marks itself as blocked. -/

namespace Cervus.Sched

inductive TaskState
  | running | ready | blocked
  deriving DecidableEq

/-- The next access of a call of `task_unblock` to its task. -/
inductive Stage
  | check | runnable | state | enqueue
  deriving DecidableEq

structure Sch where
  runnable : Bool
  state : TaskState
  onRq : Bool
  onCpu : Bool
  deriving DecidableEq

/-- The step of `task_unblock` on the task, and the one that follows. -/
def unblock (k : Sch) : Stage → Sch × Option Stage
  | .check => (k, if k.state = .blocked then some .runnable else none)
  | .runnable => ({ k with runnable := true }, some .state)
  | .state => ({ k with state := .ready }, some .enqueue)
  | .enqueue => ({ k with onRq := true }, none)

/-- `sched_reschedule` leaves the task, on its own call or when its time is up. -/
def switchOut (k : Sch) : Sch :=
  if k.runnable then { k with state := .ready, onRq := true, onCpu := false }
    else { k with onCpu := false }

end Cervus.Sched
