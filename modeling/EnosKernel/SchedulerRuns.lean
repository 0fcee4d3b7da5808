import EnosKernel.Scheduler
import EnosKernel.Runs

/-! Whole runs of the scheduler.  A traced state carries, next to the task table, what
an observer of the calls has to remember: who runs, with which stack pointer each
task was last switched away, and which tasks were registered. -/
namespace EnosKernel
namespace Scheduler

inductive Op
  | registerNamedTask (name : String) (stack : UInt32)
  | scheduleNext (esp : UInt32)
  | sleepCurrentTask (esp ticks : UInt32)
  | killTaskByPid (pid : ℕ)
  | terminateFromFault (esp : UInt32)
  deriving DecidableEq, Repr

structure Traced where
  manager : TaskManager
  running : ℕ
  lastEsp : ℕ → Option UInt32
  created : ℕ → Option UInt32
  registered : List (ℕ × String)

namespace Traced

/-- Before any call the initial user thread, pid 1, runs. -/
def new : Traced where
  manager := .new
  running := 1
  lastEsp := fun _ => none
  created := fun _ => none
  registered := []

/-- The pointer a task has to be resumed with: the `esp` of the last `schedule_next`
made while it ran, and before the first one the pointer it was created with. -/
def ownPointer (s : Traced) (id : ℕ) : Option UInt32 := (s.lastEsp id).or (s.created id)

/-- The initial thread enters the table in the call that turns `main_task_tracked` on. -/
def noteMain (s : Traced) (after : TaskManager) (esp : UInt32) : ℕ → Option UInt32 :=
  if after.mainTaskTracked && !s.manager.mainTaskTracked then
    Function.update s.created 1 (some esp)
  else s.created

def selectedId (s : Traced) (after : TaskManager) : ℕ :=
  (after.tasks[after.currentTaskIdx]?).elim s.running Task.id

def apply (s : Traced) : Op → Except Panic Traced
  | .registerNamedTask name stack => do
    let after ← s.manager.registerNamedTask name stack
    let id := s.manager.nextTaskId
    .ok { s with
      manager := after
      created := Function.update s.created id (some (Task.new id name .kernel stack).stackPtr)
      registered := s.registered++[(id,name)] }
  | .scheduleNext esp => do
    let (_,after) ← s.manager.scheduleNext esp
    .ok { s with
      manager := after
      running := s.selectedId after
      lastEsp := Function.update s.lastEsp s.running (some esp)
      created := s.noteMain after esp }
  | .sleepCurrentTask esp ticks =>
    let after := (s.manager.sleepCurrentTask esp ticks).2
    .ok { s with manager := after, created := s.noteMain after esp }
  | .killTaskByPid pid => do
    let (_,after) ← s.manager.killTaskByPid pid
    .ok { s with manager := after }
  | .terminateFromFault esp => do
    let (_,after) ← s.manager.terminateCurrentUserTaskFromFault esp
    .ok { s with
      manager := after
      running := s.selectedId after
      created := s.noteMain after esp }

/-- The user task runs: it is not tracked yet, or it is the current one. -/
def UserRuns (s : Traced) : Prop :=
  s.manager.mainTaskTracked = false ∨
    ∃ task, s.manager.tasks[s.manager.currentTaskIdx]? = some task ∧ task.privilege = .user

/-- Only a fault of the user task itself takes the fault path. -/
def Allowed (s : Traced) : Op → Prop
  | .terminateFromFault _ => s.UserRuns
  | _ => True

def Step (s : Traced) (op : Op) (t : Traced) : Prop := s.Allowed op ∧ s.apply op = .ok t

/-- States reached by runs whose first call registers a task. -/
def Reached (t : Traced) : Prop :=
  ∃ name stack s, new.apply (.registerNamedTask name stack) = .ok s ∧ Runs.Reachable Step s t

end Traced
end Scheduler
end EnosKernel
