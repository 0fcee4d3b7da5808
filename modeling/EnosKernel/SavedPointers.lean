import EnosKernel.SchedulerCalls

/-! What the calls on the task table do to the saved stack pointers, as a map from ids to
pointers: only the entry of the running task is ever written. -/
namespace EnosKernel
namespace Scheduler

open TaskManager

/-- The pointer that the table holds for an id. -/
def pointers (tasks : List Task) (id : ℕ) : Option UInt32 :=
  (tasks.find? fun task => task.id == id).map Task.stackPtr

theorem pointers_eq_some {tasks : List Task} (h : (tasks.map Task.id).Nodup) {id : ℕ} {sp : UInt32} :
    pointers tasks id = some sp ↔ ∃ task ∈ tasks, task.id = id ∧ task.stackPtr = sp := by
  simp [pointers,KeyedList.find?_eq_some_iff h,and_assoc]

theorem pointers_of_mem {tasks : List Task} (h : (tasks.map Task.id).Nodup) {task : Task} (hmem : task ∈ tasks) :
    pointers tasks task.id = some task.stackPtr := (pointers_eq_some h).mpr ⟨task,hmem,rfl,rfl⟩

theorem pointers_eq_none {tasks : List Task} {id : ℕ} : pointers tasks id = none ↔ ∀ task ∈ tasks, task.id ≠ id := by
  simp [pointers]

theorem pointers_wake (tick : UInt64) (tasks : List Task) : pointers (tasks.map (wake tick)) = pointers tasks := by
  funext id
  simp [pointers,List.find?_map,Function.comp_def,Option.map_map]

theorem pointers_cons (task : Task) (tasks : List Task) :
    pointers (task::tasks) = Function.update (pointers tasks) task.id (some task.stackPtr) := by
  funext id
  by_cases hid : id = task.id
  · simp [pointers,hid]
  · simp [pointers,hid,Ne.symm hid]

theorem ids_set {tasks : List Task} {idx : ℕ} {current new : Task} (hcur : tasks[idx]? = some current)
    (hid : new.id = current.id) : (tasks.set idx new).map Task.id = tasks.map Task.id := by
  obtain ⟨hlt,rfl⟩ := List.getElem?_eq_some_iff.mp hcur
  have hlt' : idx < (tasks.map Task.id).length := by simpa using hlt
  have hself : (tasks.map Task.id)[idx] = new.id := by simp [hid]
  rw [List.map_set,← hself,List.set_getElem_self]

theorem pointers_set {tasks : List Task} (h : (tasks.map Task.id).Nodup) {idx : ℕ} {current : Task}
    (hcur : tasks[idx]? = some current) (new : Task) (hid : new.id = current.id) :
    pointers (tasks.set idx new) = Function.update (pointers tasks) current.id (some new.stackPtr) := by
  have hnodup : ((tasks.set idx new).map Task.id).Nodup := by rwa [ids_set hcur hid]
  funext id
  ext sp
  rw [Function.update_apply,pointers_eq_some hnodup]
  simp only [KeyedList.mem_set_iff h hcur]
  split_ifs with hsame
  · constructor
    · rintro ⟨task,rfl | ⟨-,hne⟩,hkey,hsp⟩
      · rw [hsp]
      · exact absurd (hkey.trans hsame) hne
    · intro hsp
      exact ⟨new,Or.inl rfl,hid.trans hsame.symm,Option.some.inj hsp⟩
  · rw [pointers_eq_some h]
    constructor
    · rintro ⟨task,rfl | ⟨hmem,-⟩,hkey,hsp⟩
      · exact absurd (hkey.symm.trans hid) hsame
      · exact ⟨task,hmem,hkey,hsp⟩
    · rintro ⟨task,hmem,hkey,hsp⟩
      exact ⟨task,Or.inr ⟨hmem,fun he => hsame (hkey.symm.trans he)⟩,hkey,hsp⟩

theorem pointers_eraseIdx {tasks : List Task} (h : (tasks.map Task.id).Nodup) {idx : ℕ} {current : Task}
    (hcur : tasks[idx]? = some current) :
    pointers (tasks.eraseIdx idx) = Function.update (pointers tasks) current.id none := by
  have hnodup : ((tasks.eraseIdx idx).map Task.id).Nodup := h.sublist ((List.eraseIdx_sublist _ _).map Task.id)
  funext id
  ext sp
  rw [Function.update_apply,pointers_eq_some hnodup]
  simp only [KeyedList.mem_eraseIdx_iff h hcur]
  split_ifs with hsame
  · simp only [iff_false]
    rintro ⟨task,⟨-,hne⟩,hkey,-⟩
    exact hne (hkey.trans hsame)
  · rw [pointers_eq_some h]
    constructor
    · rintro ⟨task,⟨hmem,-⟩,hkey,hsp⟩
      exact ⟨task,hmem,hkey,hsp⟩
    · rintro ⟨task,hmem,hkey,hsp⟩
      exact ⟨task,⟨hmem,fun he => hsame (hkey.symm.trans he)⟩,hkey,hsp⟩

theorem pointers_push {tasks : List Task} {task : Task} (hfresh : ∀ old ∈ tasks, old.id ≠ task.id) :
    pointers (tasks++[task]) = Function.update (pointers tasks) task.id (some task.stackPtr) := by
  funext id
  rw [Function.update_apply]
  split_ifs with hsame
  · subst hsame
    have hnone : tasks.find? (fun old => old.id == task.id) = none := by simpa using hfresh
    simp [pointers,List.find?_append,hnone]
  · simp [pointers,List.find?_append,Ne.symm hsame]

/-- The running task is to be dropped at its next switch. -/
def Condemned (s : Traced) : Prop := ∃ task ∈ s.manager.tasks, task.id = s.running ∧ task.state = .terminated

namespace Invariant

variable {s t : Traced}

theorem pointers_ensure (h : Invariant s) (esp : UInt32) {id : ℕ} (hid : id ≠ s.running) :
    pointers (s.ensure esp).manager.tasks id = pointers s.manager.tasks id := by
  cases ht : s.manager.mainTaskTracked with
  | true => simp [Traced.ensure,ensureMainTaskTracked,ht]
  | false =>
    have hrun := (h.untracked ht).1
    have htasks : (s.ensure esp).manager.tasks = Task.placeholderMain esp::s.manager.tasks := by
      simp [Traced.ensure,ensureMainTaskTracked,ht]
    rw [htasks,pointers_cons]
    exact Function.update_of_ne (by rwa [hrun] at hid) _ _

theorem pointers_ticked (h : Invariant s) (esp : UInt32) {id : ℕ} (hid : id ≠ s.running) :
    pointers (s.manager.ticked esp).tasks id = pointers s.manager.tasks id := by
  rw [TaskManager.ticked,TaskManager.wakeSleepingTasks,pointers_wake]
  exact h.counted.pointers_ensure esp hid

theorem condemned_ticked (h : Invariant s) (esp : UInt32) {current : Task}
    (hmem : current ∈ (s.manager.ticked esp).tasks) (hid : current.id = s.running) :
    current.state = .terminated ↔ Condemned s := by
  have hensure := h.counted.ensure esp
  obtain ⟨old,hold,rfl⟩ := List.mem_map.mp hmem
  rw [wake_id] at hid
  rw [wake_terminated_iff]
  have hlisted : ∀ task ∈ s.manager.tasks,
      task ∈ (ensureMainTaskTracked { s.manager with tickCount := s.manager.tickCount+1 } esp).tasks := by
    intro task htask
    unfold ensureMainTaskTracked
    split
    · exact htask
    · exact List.mem_cons_of_mem _ htask
  constructor
  · intro hdead
    refine ⟨old,?_,hid,hdead⟩
    unfold ensureMainTaskTracked at hold
    split at hold
    · exact hold
    · rcases List.mem_cons.mp hold with rfl | hold
      · simp [Task.placeholderMain] at hdead
      · exact hold
  · rintro ⟨task,htask,hrun,hdead⟩
    rw [KeyedList.eq_of_key hensure.ids_nodup hold (hlisted task htask) (hid.trans hrun.symm)]
    exact hdead

/-- A tick saves the pointer for the task it interrupts, or drops that task if it is condemned;
every other entry stays. -/
theorem pointers_tick (h : Invariant s) (esp : UInt32) (id : ℕ) [Decidable (Condemned s)] :
    pointers ((s.manager.ticked esp).switchedAway esp).tasks id =
      if id = s.running then (if Condemned s then none else some esp) else pointers s.manager.tasks id := by
  have hticked := h.ticked esp
  obtain ⟨current,hcur,hid⟩ := hticked.current (ticked_tracked s.manager esp)
  have hcondemned := h.condemned_ticked esp (List.mem_of_getElem? hcur) hid
  have hrest (hne : id ≠ s.running) := h.pointers_ticked esp hne
  simp only at hcur hid
  simp only [switchedAway,hcur,hcondemned]
  split_ifs with hdead hrun hrun
  · rw [(clamp_frame _).1,pointers_eraseIdx hticked.ids_nodup hcur,hrun,hid,Function.update_self]
  · rw [(clamp_frame _).1,pointers_eraseIdx hticked.ids_nodup hcur,hid,Function.update_of_ne hrun,hrest hrun]
  all_goals
    have hset := pointers_set hticked.ids_nodup hcur
      { current with stackPtr := esp, runTicks := current.runTicks+1 } rfl
  · exact (congrFun hset id).trans (by rw [hrun,hid,Function.update_self])
  · exact (congrFun hset id).trans (by rw [hid,Function.update_of_ne hrun,hrest hrun])

theorem pointers_fault (h : Invariant s) (esp : UInt32) (id : ℕ) :
    pointers (s.manager.faulted esp).tasks id = if id = s.running then none else pointers s.manager.tasks id := by
  have hensure := h.ensure esp
  obtain ⟨current,hcur,hid⟩ := hensure.current (s.ensure_tracked esp)
  have hm : s.manager.ensureMainTaskTracked esp = (s.ensure esp).manager := rfl
  have htasks : (s.manager.faulted esp).tasks =
      ((s.ensure esp).manager.tasks.eraseIdx (s.ensure esp).manager.currentTaskIdx).map
        (wake (s.manager.faulted esp).tickCount) := by
    simp only [TaskManager.faulted,TaskManager.wakeSleepingTasks,hm,(clamp_frame _).1]
  rw [htasks,pointers_wake,pointers_eraseIdx hensure.ids_nodup hcur,hid]
  split_ifs with hrun
  · rw [hrun]
    exact Function.update_self _ _ _
  · exact (Function.update_of_ne hrun _ _).trans (h.pointers_ensure esp hrun)

theorem pointers_sleep (h : Invariant s) (esp ticks : UInt32) {id : ℕ} (hne : id ≠ s.running) :
    pointers (s.manager.sleepCurrentTask esp ticks).2.tasks id = pointers s.manager.tasks id := by
  have hensure := h.ensure esp
  obtain ⟨current,hcur,hid,⟨-,hcall⟩ | ⟨-,hcall⟩⟩ := h.sleepCurrentTask_cases esp ticks
  · rw [hcall]
    exact h.pointers_ensure esp hne
  · rw [hcall]
    have hset := pointers_set hensure.ids_nodup hcur { current with
      stackPtr := esp
      state := .sleeping ((s.ensure esp).manager.tickCount+max 1 ticks.toUInt64) } rfl
    rw [hset,hid,Function.update_of_ne hne]
    exact h.pointers_ensure esp hne

theorem pointers_kill (h : Invariant s) {pid : ℕ} (hcall : s.Call (.killTaskByPid pid) t) :
    (∀ id ≠ s.running, pointers t.manager.tasks id = pointers s.manager.tasks id) ∨
    pid ≠ s.running ∧ pointers t.manager.tasks = Function.update (pointers s.manager.tasks) pid none := by
  rcases h.call_kill hcall with ⟨_,-,hm⟩ | ⟨task,-,hget,hid,huser,hm⟩ | ⟨idx,task,-,hne,hget,hid,huser,hm⟩
  · exact Or.inl fun id _ => by rw [hm]
  · refine Or.inl fun id hid' => ?_
    obtain ⟨current,hcur,hrun⟩ := h.current (h.tracked_of_user (List.mem_of_getElem? hget) huser)
    obtain rfl := Option.some.inj (hget.symm.trans hcur)
    have hset := pointers_set h.ids_nodup hget { task with state := .terminated } rfl
    rw [hm,hset,hrun,Function.update_of_ne hid']
  · obtain ⟨current,hcur,hrun⟩ := h.current (h.tracked_of_user (List.mem_of_getElem? hget) huser)
    refine Or.inr ⟨?_,by rw [hm,pointers_eraseIdx h.ids_nodup hget,hid]⟩
    rintro rfl
    exact hne (h.eq_of_id hget hcur (hid.trans hrun.symm))

end Invariant

end Scheduler
end EnosKernel
