import EnosKernel.SchedulerCalls

/-! Lives of tasks: no call brings back a task that was killed or dropped.  Every task of a
later table continues one of the earlier table under the same id, and a terminated one
stays terminated until the next switch drops it. -/
namespace EnosKernel
namespace Scheduler

open TaskManager

/-- Every later task was listed before, and is terminated if it was. -/
def Continues (before after : List Task) : Prop :=
  ∀ task ∈ after, ∃ old ∈ before, old.id = task.id ∧ (old.state = .terminated → task.state = .terminated)

namespace Continues

variable {m : TaskManager} {first second third : List Task}

theorem of_subset (h : second ⊆ first) : Continues first second :=
  fun task hmem => ⟨task,h hmem,rfl,id⟩

theorem trans (h : Continues first second) (h' : Continues second third) : Continues first third := by
  intro task hmem
  obtain ⟨middle,hmiddle,hid,hdead⟩ := h' task hmem
  obtain ⟨old,hold,hid',hdead'⟩ := h middle hmiddle
  exact ⟨old,hold,hid'.trans hid,hdead ∘ hdead'⟩

theorem set {idx : ℕ} {current new : Task} (hcur : first[idx]? = some current)
    (hid : new.id = current.id) (hdead : current.state = .terminated → new.state = .terminated) :
    Continues first (first.set idx new) := by
  intro task hmem
  rcases List.mem_or_eq_of_mem_set hmem with hold | rfl
  · exact ⟨task,hold,rfl,id⟩
  · exact ⟨current,List.mem_of_getElem? hcur,hid.symm,hdead⟩

theorem wake (tick : UInt64) (tasks : List Task) : Continues tasks (tasks.map (TaskManager.wake tick)) := by
  intro task hmem
  obtain ⟨old,hold,rfl⟩ := List.mem_map.mp hmem
  exact ⟨old,hold,by simp,(wake_terminated_iff _ _).mpr⟩

theorem ticked (ht : m.mainTaskTracked = true) (esp : UInt32) : Continues m.tasks (m.ticked esp).tasks := by
  simp only [TaskManager.ticked,ensureMainTaskTracked,ht,if_true]
  exact wake _ _

theorem switchedAway (m : TaskManager) (esp : UInt32) : Continues m.tasks (m.switchedAway esp).tasks := by
  unfold TaskManager.switchedAway
  cases hcur : m.tasks[m.currentTaskIdx]? with
  | none => exact of_subset (List.Subset.refl _)
  | some current =>
    dsimp only
    split_ifs with hdead
    · rw [(Invariant.clamp_frame _).1]
      exact of_subset (List.eraseIdx_subset)
    · exact set hcur rfl id

theorem faulted (ht : m.mainTaskTracked = true) (esp : UInt32) : Continues m.tasks (m.faulted esp).tasks := by
  simp only [TaskManager.faulted,ensureMainTaskTracked,ht,if_true,TaskManager.wakeSleepingTasks]
  rw [(Invariant.clamp_frame _).1]
  exact (of_subset (List.eraseIdx_subset)).trans (wake _ _)

end Continues

namespace Invariant

variable {s t : Traced}

theorem sleep_continues (h : Invariant s) (ht : s.manager.mainTaskTracked = true) (esp ticks : UInt32) :
    Continues s.manager.tasks (s.manager.sleepCurrentTask esp ticks).2.tasks ∧
    (s.manager.sleepCurrentTask esp ticks).2.nextTaskId = s.manager.nextTaskId ∧
    (s.manager.sleepCurrentTask esp ticks).2.mainTaskTracked = true := by
  have hm : (s.ensure esp).manager = s.manager := by simp [Traced.ensure,ensureMainTaskTracked,ht]
  obtain ⟨current,hcur,-,⟨-,hcall⟩ | ⟨⟨-,hlive⟩,hcall⟩⟩ := h.sleepCurrentTask_cases esp ticks
  · rw [hcall,hm]
    exact ⟨.of_subset (List.Subset.refl _),rfl,ht⟩
  · rw [hm] at hcur hcall
    rw [hcall]
    exact ⟨.set hcur rfl (fun hdead => absurd hdead hlive),rfl,ht⟩

theorem kill_continues (h : Invariant s) {pid : ℕ} (hcall : s.Call (.killTaskByPid pid) t) :
    Continues s.manager.tasks t.manager.tasks ∧ t.manager.nextTaskId = s.manager.nextTaskId ∧
      t.manager.mainTaskTracked = s.manager.mainTaskTracked := by
  rcases h.call_kill hcall with ⟨reason,-,hm⟩ | ⟨task,-,hget,-,-,hm⟩ | ⟨idx,task,-,-,-,-,-,hm⟩
  all_goals rw [hm]
  · exact ⟨.of_subset (List.Subset.refl _),rfl,rfl⟩
  · exact ⟨.set hget rfl (fun _ => rfl),rfl,rfl⟩
  · exact ⟨.of_subset List.eraseIdx_subset,rfl,rfl⟩

/-- Once the user task is tracked, only registration adds a task, under the next id. -/
theorem continues (h : Invariant s) (ht : s.manager.mainTaskTracked = true) {op : Op}
    (hcall : s.Call op t) :
    (Continues s.manager.tasks t.manager.tasks ∨ ∃ name stack, op = .registerNamedTask name stack ∧
      t.manager.tasks = s.manager.tasks++[Task.new s.manager.nextTaskId name .kernel stack]) ∧
    s.manager.nextTaskId ≤ t.manager.nextTaskId ∧ t.manager.mainTaskTracked = true := by
  cases op with
  | registerNamedTask name stack =>
    rw [hcall.register.1]
    exact ⟨Or.inr ⟨name,stack,rfl,rfl⟩,Nat.le_succ _,ht⟩
  | scheduleNext esp =>
    obtain ⟨idx,task,hswitch,hm,-⟩ := h.call_scheduleNext hcall
    rw [hm]
    refine ⟨Or.inl ((Continues.ticked ht esp).trans (.switchedAway _ esp)),?_,hswitch.parked.tracked⟩
    exact (h.next_id.trans hswitch.parked.next_id.symm).le
  | sleepCurrentTask esp ticks =>
    obtain ⟨hcont,hnext,htrack⟩ := h.sleep_continues ht esp ticks
    rw [hcall.sleep.1]
    exact ⟨Or.inl hcont,hnext.ge,htrack⟩
  | killTaskByPid pid =>
    obtain ⟨hcont,hnext,htrack⟩ := h.kill_continues hcall
    exact ⟨Or.inl hcont,hnext.ge,htrack.trans ht⟩
  | terminateFromFault esp =>
    obtain ⟨-,idx,task,hswitch,hm,-⟩ := h.call_terminateFromFault hcall
    rw [hm]
    refine ⟨Or.inl (.faulted ht esp),?_,hswitch.parked.tracked⟩
    exact (h.next_id.trans hswitch.parked.next_id.symm).le

theorem live_of_selects (h : Invariant s) {op : Op} (hcall : s.Call op t) (hsel : op.selects = true) :
    (∀ task ∈ t.manager.tasks, task.state ≠ .terminated) ∧
    ∃ task, t.manager.tasks[t.manager.currentTaskIdx]? = some task := by
  cases op with
  | scheduleNext esp =>
    obtain ⟨idx,task,hswitch,hm,-⟩ := h.call_scheduleNext hcall
    rw [hm]
    exact ⟨hswitch.parked.live,task,hswitch.selected⟩
  | terminateFromFault esp =>
    obtain ⟨-,idx,task,hswitch,hm,-⟩ := h.call_terminateFromFault hcall
    rw [hm]
    exact ⟨hswitch.parked.live,task,hswitch.selected⟩
  | _ => simp [Op.selects] at hsel

end Invariant

/-- The id `p` is used up, and what is still listed under it is terminated. -/
structure Dead (p : ℕ) (s : Traced) : Prop extends Invariant s where
  tracked : s.manager.mainTaskTracked = true
  old : p < s.manager.nextTaskId
  dead : ∀ task ∈ s.manager.tasks, task.id = p → task.state = .terminated

/-- The id `p` is used up, and nothing is listed under it. -/
structure Gone (p : ℕ) (s : Traced) : Prop extends Dead p s where
  absent : ∀ task ∈ s.manager.tasks, task.id ≠ p

namespace Dead

variable {p : ℕ} {s t : Traced} {op : Op}

theorem call (h : Dead p s) (hcall : s.Call op t) : Dead p t := by
  obtain ⟨htasks,hnext,htrack⟩ := h.continues h.tracked hcall
  refine ⟨h.toInvariant.call hcall,htrack,h.old.trans_le hnext,?_⟩
  intro task hmem hid
  rcases htasks with hcont | ⟨name,stack,-,hpush⟩
  · obtain ⟨old,hold,he,hdead⟩ := hcont task hmem
    exact hdead (h.dead old hold (he.trans hid))
  · rw [hpush,List.mem_append,List.mem_singleton] at hmem
    rcases hmem with hold | rfl
    · exact h.dead task hold hid
    · exact absurd hid h.old.ne'

theorem selects (h : Dead p s) (hcall : s.Call op t) (hsel : op.selects = true) : Gone p t :=
  have ht := h.call hcall
  ⟨ht,fun task hmem hid => (h.live_of_selects hcall hsel).1 task hmem (ht.dead task hmem hid)⟩

end Dead

theorem Gone.call {p : ℕ} {s t : Traced} {op : Op} (h : Gone p s) (hcall : s.Call op t) : Gone p t := by
  refine ⟨h.toDead.call hcall,?_⟩
  intro task hmem hid
  rcases (h.continues h.tracked hcall).1 with hcont | ⟨name,stack,-,hpush⟩
  · obtain ⟨old,hold,he,-⟩ := hcont task hmem
    exact h.absent old hold (he.trans hid)
  · rw [hpush,List.mem_append,List.mem_singleton] at hmem
    rcases hmem with hold | rfl
    · exact h.absent task hold hid
    · exact absurd hid h.old.ne'

/-- The call ends the life of task `p`: a kill that answers `Ok`, or a fault that drops it. -/
def Traced.Ends (p : ℕ) (s : Traced) (t : Traced) : Op → Prop
  | .killTaskByPid pid => pid = p ∧ ∃ result after, s.manager.killTaskByPid pid = .ok (.ok result,after)
  | .terminateFromFault esp =>
    (∃ task ∈ (s.manager.ensureMainTaskTracked esp).tasks, task.id = p) ∧
      ∀ task ∈ t.manager.tasks, task.id ≠ p
  | _ => False

theorem Invariant.dead_of_kill {p : ℕ} {s t : Traced} (h : Invariant s)
    (hcall : s.Call (.killTaskByPid p) t) {result : KillTaskResult} {after : TaskManager}
    (hok : s.manager.killTaskByPid p = .ok (.ok result,after)) : Dead p t := by
  obtain ⟨-,hnext,htrack⟩ := h.kill_continues hcall
  have hlisted {idx : ℕ} {task : Task} (hget : s.manager.tasks[idx]? = some task) (hid : task.id = p)
      (huser : task.privilege = .user) (hdead : ∀ task ∈ t.manager.tasks, task.id = p →
        task.state = .terminated) : Dead p t := by
    have hmem := List.mem_of_getElem? hget
    refine ⟨h.call hcall,htrack.trans (h.tracked_of_user hmem huser),?_,hdead⟩
    rw [hnext,← hid]
    exact h.id_lt hmem
  rcases h.call_kill hcall with ⟨reason,hc,-⟩ | ⟨task,-,hget,hid,huser,hm⟩ |
      ⟨idx,task,-,hne,hget,hid,huser,hm⟩
  · cases hok.symm.trans hc
  · apply hlisted hget hid huser
    rw [hm]
    intro other hother he
    rcases h.mem_set hget hother with ⟨-,hdiff⟩ | rfl
    · exact absurd (he.trans hid.symm) hdiff
    · rfl
  · apply hlisted hget hid huser
    rw [hm]
    intro other hother he
    exact absurd (he.trans hid.symm) ((h.mem_eraseIdx hget).mp hother).2

theorem Invariant.dead_of_ends {p : ℕ} {s t : Traced} (h : Invariant s) {op : Op} (hcall : s.Call op t)
    (hends : s.Ends p t op) : Dead p t := by
  cases op with
  | killTaskByPid pid =>
    obtain ⟨rfl,result,after,hok⟩ := hends
    exact h.dead_of_kill hcall hok
  | terminateFromFault esp =>
    obtain ⟨⟨task,hmem,rfl⟩,habsent⟩ := hends
    obtain ⟨-,idx,next,hswitch,hm,-⟩ := h.call_terminateFromFault hcall
    have hnext : (s.ensure esp).manager.nextTaskId = t.manager.nextTaskId := by
      rw [hm]
      exact (h.ensure esp).next_id.trans hswitch.parked.next_id.symm
    refine ⟨h.call hcall,by rw [hm]; exact hswitch.parked.tracked,?_,?_⟩
    · rw [← hnext]
      exact (h.ensure esp).id_lt hmem
    · exact fun other hother he => absurd he (habsent other hother)
  | _ => exact hends.elim

/-- From the next selection on the id is not listed any more. -/
theorem Dead.gone_of_selects {p : ℕ} {s : Traced} (h : Dead p s) {path : List (Op × Traced)}
    (hpath : Runs.Along Traced.Call s path) (hsel : ∃ e ∈ path, e.1.selects = true) :
    Gone p (Runs.final s path) := by
  induction path generalizing s with
  | nil => simp at hsel
  | cons e path ih =>
    obtain ⟨hcall,hrest⟩ := hpath
    by_cases hfirst : e.1.selects = true
    · exact hrest.reachable.invariant (I := Gone p) (fun _ _ _ hu hcall => hu.call hcall)
        (h.selects hcall hfirst)
    · apply ih (h.call hcall) hrest
      obtain ⟨f,hmem,hf⟩ := hsel
      rcases List.mem_cons.mp hmem with rfl | hmem
      · exact absurd hf hfirst
      · exact ⟨f,hmem,hf⟩

/-- A dead task never runs again: ids are unique, and after a call that ended `p` no selection
chooses `p`, no registration reuses the id, and the next selection drops it for good. -/
theorem dead_task_never_runs_again {s : Traced} (h : s.Ran) :
    (s.manager.tasks.map Task.id).Nodup ∧
    ∀ op t p, s.Call op t → s.Ends p t op → ∀ path, Runs.Along Traced.Call t path →
      Runs.Along (fun u op v =>
        (op.selects = true →
          ∃ task, v.manager.tasks[v.manager.currentTaskIdx]? = some task ∧ task.id ≠ p) ∧
        (∀ name stack, op = .registerNamedTask name stack →
          ∃ task, v.manager.tasks = u.manager.tasks++[task] ∧ task.id ≠ p)) t path ∧
      ((∃ e ∈ path, e.1.selects = true) →
        ∀ task ∈ (Runs.final t path).manager.tasks, task.id ≠ p) := by
  rcases h.consistent with hblank | hinv
  · refine ⟨by simp [hblank.tasks],?_⟩
    intro op t p hcall hends
    cases op with
    | killTaskByPid pid =>
      obtain ⟨-,result,after,hok⟩ := hends
      obtain ⟨reason,hkill⟩ := hblank.killTaskByPid_eq pid
      cases hok.symm.trans hkill
    | terminateFromFault esp => exact absurd hcall hblank.terminateFromFault
    | _ => exact hends.elim
  · refine ⟨hinv.ids_nodup,?_⟩
    intro op t p hcall hends path hpath
    have hdead := hinv.dead_of_ends hcall hends
    refine ⟨?_,fun hsel => (hdead.gone_of_selects hpath hsel).absent⟩
    refine hpath.of_invariant (I := Dead p) (fun _ _ _ hu hc => hu.call hc) ?_ hdead
    intro u op v hu hc
    constructor
    · intro hsel
      obtain ⟨task,hget⟩ := (hu.live_of_selects hc hsel).2
      exact ⟨task,hget,(hu.selects hc hsel).absent task (List.mem_of_getElem? hget)⟩
    · rintro name stack rfl
      exact ⟨_,congrArg TaskManager.tasks hc.register.1,hu.old.ne'⟩

/-- The user thread is killed while it waits; one tick later it is gone. -/
theorem dead_task_never_runs_again_firstTick : firstTick.Ran ∧
    ∃ t u, firstTick.Call (.killTaskByPid 1) t ∧ t.Call (.scheduleNext 0xa000) u ∧
      ∀ task ∈ u.manager.tasks, task.id ≠ 1 := by
  have hran := firstTick_reached.ran
  obtain ⟨t,hkill,hinv⟩ := firstTick_reached.invariant.killTaskByPid 1
  obtain ⟨u,htick⟩ := hinv.apply (show t.Allowed (.scheduleNext 0xa000) from trivial) (by simp)
  refine ⟨hran,t,u,hkill,htick,?_⟩
  exact ((dead_task_never_runs_again hran).2 (.killTaskByPid 1) t 1 hkill ⟨rfl,_,_,rfl⟩
    [(.scheduleNext 0xa000,u)] ⟨htick,trivial⟩).2 ⟨_,List.mem_singleton_self _,rfl⟩

end Scheduler
end EnosKernel
