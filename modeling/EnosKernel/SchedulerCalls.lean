import EnosKernel.SchedulerSafety

/-! Runs in which any call may come at any time, from the empty table on.  Until the first
registration the table stays blank; a fault taken while the user task does not run
panics, so every call that returns from then on is an allowed one. -/
namespace EnosKernel
namespace Scheduler

open TaskManager

namespace Op

def selects : Op → Bool
  | .scheduleNext _ => true
  | .terminateFromFault _ => true
  | _ => false

def ticks : Op → Bool
  | .scheduleNext _ => true
  | _ => false

def registers : Op → Bool
  | .registerNamedTask _ _ => true
  | _ => false

end Op

namespace Traced

def Call (s : Traced) (op : Op) (t : Traced) : Prop := s.apply op = .ok t

/-- States reached from the empty table by any calls in any order. -/
def Ran (t : Traced) : Prop := Runs.Reachable Call new t

namespace Call

variable {s t : Traced}

theorem register {name : String} {stack : UInt32} (hcall : s.Call (.registerNamedTask name stack) t) :
    t.manager = { s.manager with
      nextTaskId := s.manager.nextTaskId+1
      tasks := s.manager.tasks++[Task.new s.manager.nextTaskId name .kernel stack] } ∧
    t.running = s.running := by
  cases hadd : MachineArith.add 32 s.manager.nextTaskId 1 with
  | error e => simp [Call,apply,TaskManager.registerNamedTask,hadd,bind,Except.bind] at hcall
  | ok next =>
    obtain ⟨rfl,-⟩ := MachineArith.add_eq_ok.mp hadd
    simp only [Call,apply,TaskManager.registerNamedTask,hadd,bind,Except.bind,Except.ok.injEq] at hcall
    subst hcall
    exact ⟨rfl,rfl⟩

theorem sleep {esp ticks : UInt32} (hcall : s.Call (.sleepCurrentTask esp ticks) t) :
    t.manager = (s.manager.sleepCurrentTask esp ticks).2 ∧ t.running = s.running := by
  simp only [Call,apply,Except.ok.injEq] at hcall
  subst hcall
  exact ⟨rfl,rfl⟩

theorem kill {pid : ℕ} (hcall : s.Call (.killTaskByPid pid) t) :
    (∃ answer, s.manager.killTaskByPid pid = .ok (answer,t.manager)) ∧ t.running = s.running := by
  cases hkill : s.manager.killTaskByPid pid with
  | error e => simp [Call,apply,hkill,bind,Except.bind] at hcall
  | ok result =>
    simp only [Call,apply,hkill,bind,Except.bind,Except.ok.injEq] at hcall
    subst hcall
    exact ⟨⟨result.1,rfl⟩,rfl⟩

end Call

end Traced

structure Blank (s : Traced) : Prop where
  tasks : s.manager.tasks = []
  untracked : s.manager.mainTaskTracked = false
  next_id : s.manager.nextTaskId = 2
  running : s.running = 1
  registered : s.registered = []
  fresh : ∀ id, id ≠ 1 → s.lastEsp id = none

namespace Blank

variable {s t : Traced}

theorem new : Blank .new := ⟨rfl,rfl,rfl,rfl,rfl,fun _ _ => rfl⟩

theorem register (h : Blank s) {name : String} {stack : UInt32}
    (hcall : s.Call (.registerNamedTask name stack) t) : Invariant t := by
  have hadd : MachineArith.add 32 s.manager.nextTaskId 1 = .ok 3 := by
    rw [h.next_id]
    rfl
  simp only [Traced.Call,Traced.apply,TaskManager.registerNamedTask,hadd,bind,Except.bind,
    Except.ok.injEq] at hcall
  subst hcall
  refine ⟨⟨?_,?_,?_,?_,?_,?_,?_,?_⟩,?_,?_,?_,?_⟩ <;>
    simp [h.tasks,h.untracked,h.next_id,h.running,h.registered,Task.new,kernelRows,Traced.ownPointer]
  · intro id hid
    exact h.fresh id (by omega)
  · simp [h.fresh]

theorem scheduleNext (h : Blank s) {esp : UInt32} (hcall : s.Call (.scheduleNext esp) t) : Blank t := by
  simp only [Traced.Call,Traced.apply,TaskManager.scheduleNext,h.tasks,List.isEmpty_nil,if_true,bind,
    Except.bind,Except.ok.injEq] at hcall
  subst hcall
  refine ⟨rfl,h.untracked,h.next_id,?_,h.registered,?_⟩
  · simp [Traced.selectedId,h.running]
  · intro id hid
    simpa [h.running,hid] using h.fresh id hid

theorem sleepCurrentTask (h : Blank s) {esp ticks : UInt32}
    (hcall : s.Call (.sleepCurrentTask esp ticks) t) : Blank t := by
  simp only [Traced.Call,Traced.apply,TaskManager.sleepCurrentTask,h.tasks,List.isEmpty_nil,if_true,
    Except.ok.injEq] at hcall
  subst hcall
  exact ⟨h.tasks,h.untracked,h.next_id,h.running,h.registered,h.fresh⟩

theorem killTaskByPid_eq (h : Blank s) (pid : ℕ) :
    ∃ reason, s.manager.killTaskByPid pid = .ok (.error reason,s.manager) := by
  rcases killTaskByPid_cases s.manager pid with ⟨reason,hkill,-⟩ | ⟨task,hget,-⟩ | ⟨idx,task,-,hget,-⟩
  · exact ⟨reason,hkill⟩
  · simp [h.tasks] at hget
  · simp [h.tasks] at hget

theorem killTaskByPid (h : Blank s) {pid : ℕ} (hcall : s.Call (.killTaskByPid pid) t) : Blank t := by
  obtain ⟨reason,hkill⟩ := h.killTaskByPid_eq pid
  simp only [Traced.Call,Traced.apply,hkill,bind,Except.bind,Except.ok.injEq] at hcall
  subst hcall
  exact ⟨h.tasks,h.untracked,h.next_id,h.running,h.registered,h.fresh⟩

/-- The fault of the only thread there is ends the run. -/
theorem terminateFromFault (h : Blank s) {esp : UInt32} :
    ¬ s.Call (.terminateFromFault esp) t := by
  simp [Traced.Call,Traced.apply,terminateCurrentUserTaskFromFault,ensureMainTaskTracked,h.untracked,
    h.tasks,clamp,indexTask,removeTask,Task.placeholderMain,bind,Except.bind]

theorem call (h : Blank s) {op : Op} (hcall : s.Call op t) : Blank t ∨ Invariant t := by
  cases op with
  | registerNamedTask name stack => exact Or.inr (h.register hcall)
  | scheduleNext esp => exact Or.inl (h.scheduleNext hcall)
  | sleepCurrentTask esp ticks => exact Or.inl (h.sleepCurrentTask hcall)
  | killTaskByPid pid => exact Or.inl (h.killTaskByPid hcall)
  | terminateFromFault esp => exact absurd hcall h.terminateFromFault

end Blank

namespace Invariant

variable {s t : Traced}

theorem allowed (h : Invariant s) {op : Op} (hcall : s.Call op t) : s.Allowed op := by
  cases op with
  | terminateFromFault esp =>
    by_contra hruns
    simp only [Traced.Allowed,Traced.UserRuns,not_or,Bool.not_eq_false] at hruns
    obtain ⟨current,hcur,-⟩ := h.current hruns.1
    have hpriv : current.privilege ≠ .user := fun huser => hruns.2 ⟨current,hcur,huser⟩
    have hlt := (List.getElem?_eq_some_iff.mp hcur).1
    have hclamp : clamp s.manager = s.manager := if_neg (by simpa using hlt)
    have hfirst : s.manager.tasks.isEmpty = false := by simpa using h.tasks_ne_nil
    simp [Traced.Call,Traced.apply,terminateCurrentUserTaskFromFault,ensureMainTaskTracked,hruns.1,
      hfirst,hclamp,indexTask_ok hcur,hpriv,bind,Except.bind] at hcall
  | _ => trivial

theorem call (h : Invariant s) {op : Op} (hcall : s.Call op t) : Invariant t :=
  h.step ⟨h.allowed hcall,hcall⟩

theorem call_scheduleNext (h : Invariant s) {esp : UInt32} (hcall : s.Call (.scheduleNext esp) t) :
    ∃ idx task, Switches ((s.manager.ticked esp).switchedAway esp) s.registered
      (Function.update s.lastEsp s.running (some esp)) (s.ensure esp).created
      (s.manager.scheduleNext esp) idx task ∧
      t.manager = { (s.manager.ticked esp).switchedAway esp with currentTaskIdx := idx } ∧
      t.running = task.id := by
  obtain ⟨idx,task,hswitch⟩ := h.scheduleNext esp
  rw [Traced.Call,apply_scheduleNext hswitch,Except.ok.injEq] at hcall
  subst hcall
  exact ⟨idx,task,hswitch,rfl,rfl⟩

theorem call_kill (h : Invariant s) {pid : ℕ} (hcall : s.Call (.killTaskByPid pid) t) :
    (∃ reason, s.manager.killTaskByPid pid = .ok (.error reason,t.manager) ∧ t.manager = s.manager) ∨
    (∃ task, s.manager.killTaskByPid pid = .ok (.ok .markedForTermination,t.manager) ∧
      s.manager.tasks[s.manager.currentTaskIdx]? = some task ∧ task.id = pid ∧
      task.privilege = .user ∧ t.manager = { s.manager with
        tasks := s.manager.tasks.set s.manager.currentTaskIdx { task with state := .terminated } }) ∨
    ∃ idx task, s.manager.killTaskByPid pid = .ok (.ok .killedNow,t.manager) ∧
      idx ≠ s.manager.currentTaskIdx ∧ s.manager.tasks[idx]? = some task ∧ task.id = pid ∧
      task.privilege = .user ∧ t.manager = { s.manager with
        tasks := s.manager.tasks.eraseIdx idx
        currentTaskIdx := indexAfterRemoval idx s.manager.currentTaskIdx } := by
  obtain ⟨answer,hkill⟩ := hcall.kill.1
  rcases h.kill_cases pid with ⟨reason,hc,-⟩ | ⟨task,hget,hid,huser,hc⟩ | ⟨idx,task,hne,hget,hid,huser,hc⟩
  all_goals
    obtain ⟨rfl,hm⟩ := Prod.mk.inj (Except.ok.inj (hkill.symm.trans hc))
  · exact Or.inl ⟨reason,hkill,hm⟩
  · exact Or.inr (Or.inl ⟨task,hkill,hget,hid,huser,hm⟩)
  · exact Or.inr (Or.inr ⟨idx,task,hkill,hne,hget,hid,huser,hm⟩)

theorem call_terminateFromFault (h : Invariant s) {esp : UInt32}
    (hcall : s.Call (.terminateFromFault esp) t) :
    (∀ task ∈ (s.manager.faulted esp).tasks, task.id ≠ s.running) ∧
    ∃ idx task, Switches (s.manager.faulted esp) s.registered s.lastEsp (s.ensure esp).created
      (s.manager.terminateCurrentUserTaskFromFault esp) idx task ∧
      t.manager = { s.manager.faulted esp with currentTaskIdx := idx } ∧ t.running = task.id := by
  obtain ⟨hother,idx,task,hswitch⟩ := h.terminateFromFault (h.allowed hcall) esp
  rw [Traced.Call,apply_terminateFromFault hswitch,Except.ok.injEq] at hcall
  subst hcall
  exact ⟨hother,idx,task,hswitch,rfl,rfl⟩

end Invariant

/-- What every call preserves, from the empty table on. -/
def Consistent (s : Traced) : Prop := Blank s ∨ Invariant s

theorem Consistent.call {s t : Traced} {op : Op} (h : Consistent s) (hcall : s.Call op t) :
    Consistent t :=
  h.elim (fun hblank => hblank.call hcall) (fun hinv => Or.inr (hinv.call hcall))

theorem Traced.Ran.consistent {s : Traced} (h : s.Ran) : Consistent s :=
  Runs.Reachable.invariant (I := Consistent) (fun _ _ _ hs hcall => hs.call hcall) (Or.inl Blank.new) h

theorem Traced.Reached.ran {t : Traced} (h : t.Reached) : t.Ran := by
  obtain ⟨name,stack,s,hstart,hrun⟩ := h
  have hcalls : Runs.Reachable Traced.Call s t := by
    induction hrun with
    | refl => exact Relation.ReflTransGen.refl
    | tail _ hlast ih => exact ih.tail (hlast.imp fun _ => And.right)
  exact Relation.ReflTransGen.head ⟨_,hstart⟩ hcalls

end Scheduler
end EnosKernel
