import EnosKernel.SchedulerCalls

/-! Removing the running task.  The user task always stands first, so after its removal the
index designates its successor already, and the search, which starts one further, skips
that task. -/
namespace EnosKernel
namespace Scheduler

open TaskManager

def UserFirst (tasks : List Task) : Prop := ∀ p ∈ (tasks.map Task.privilege).tail, p = .kernel

namespace UserFirst

variable {tasks tasks' : List Task}

theorem congr (h : UserFirst tasks) (hsig : tasks'.map Task.signature = tasks.map Task.signature) :
    UserFirst tasks' := by
  have hproj (tasks : List Task) :
      tasks.map Task.privilege = (tasks.map Task.signature).map Prod.fst := by
    simp [Task.signature]
  rw [UserFirst,hproj,hsig,← hproj]
  exact h

theorem wake (h : UserFirst tasks) (tick : UInt64) : UserFirst (tasks.map (TaskManager.wake tick)) :=
  h.congr (by simp [Function.comp_def])

theorem push (h : UserFirst tasks) {task : Task} (hkernel : task.privilege = .kernel) :
    UserFirst (tasks++[task]) := by
  cases tasks with
  | nil => simp [UserFirst]
  | cons first rest => simpa [UserFirst,hkernel,or_imp,forall_and] using h

theorem eraseIdx (h : UserFirst tasks) (idx : ℕ) : UserFirst (tasks.eraseIdx idx) := by
  cases tasks with
  | nil => simpa using h
  | cons first rest =>
    cases idx with
    | zero => exact fun p hp => h p (by simpa using List.mem_of_mem_tail hp)
    | succ idx =>
      intro p hp
      apply h p
      simp only [List.eraseIdx_cons_succ,List.map_cons,List.tail_cons,List.mem_map] at hp ⊢
      exact hp.imp fun task htask => ⟨List.mem_of_mem_eraseIdx htask.1,htask.2⟩

theorem eq_zero (h : UserFirst tasks) {idx : ℕ} {task : Task} (hget : tasks[idx]? = some task)
    (huser : task.privilege = .user) : idx = 0 := by
  cases idx with
  | zero => rfl
  | succ idx =>
    have hmem : TaskPrivilege.user ∈ (tasks.map Task.privilege).tail := by
      refine List.mem_iff_getElem?.mpr ⟨idx,?_⟩
      simp [hget,huser]
    exact absurd (h _ hmem) (by simp)

end UserFirst

namespace Invariant

variable {s t : Traced}

theorem userFirst_ensure (h : Invariant s) (hfirst : UserFirst s.manager.tasks) (esp : UInt32) :
    UserFirst (s.manager.ensureMainTaskTracked esp).tasks := by
  cases ht : s.manager.mainTaskTracked with
  | true => simpa [ensureMainTaskTracked,ht] using hfirst
  | false =>
    have hkernel := (h.untracked ht).2
    simpa [UserFirst,ensureMainTaskTracked,ht] using hkernel

theorem userFirst_call (h : Invariant s) (hfirst : UserFirst s.manager.tasks) {op : Op}
    (hcall : s.Call op t) : UserFirst t.manager.tasks := by
  cases op with
  | registerNamedTask name stack =>
    rw [hcall.register.1]
    exact hfirst.push rfl
  | scheduleNext esp =>
    obtain ⟨idx,task,-,hm,-⟩ := h.call_scheduleNext hcall
    have hticked : UserFirst (s.manager.ticked esp).tasks := (h.counted.userFirst_ensure hfirst esp).wake _
    rw [hm]
    change UserFirst ((s.manager.ticked esp).switchedAway esp).tasks
    unfold switchedAway
    cases hcur : (s.manager.ticked esp).tasks[(s.manager.ticked esp).currentTaskIdx]? with
    | none => exact hticked
    | some current =>
      dsimp only
      split_ifs
      · rw [(clamp_frame _).1]
        exact hticked.eraseIdx _
      · exact hticked.congr (signature_set hcur rfl)
  | sleepCurrentTask esp ticks =>
    have hensured := h.userFirst_ensure hfirst esp
    rw [hcall.sleep.1]
    obtain ⟨current,hcur,-,⟨-,hsleep⟩ | ⟨-,hsleep⟩⟩ := h.sleepCurrentTask_cases esp ticks
    · rw [hsleep]
      exact hensured
    · rw [hsleep]
      exact hensured.congr (signature_set hcur rfl)
  | killTaskByPid pid =>
    rcases h.call_kill hcall with ⟨reason,-,hm⟩ | ⟨task,-,hget,-,-,hm⟩ | ⟨idx,task,-,-,-,-,-,hm⟩
    all_goals rw [hm]
    · exact hfirst
    · exact hfirst.congr (signature_set hget rfl)
    · exact hfirst.eraseIdx idx
  | terminateFromFault esp =>
    obtain ⟨-,idx,task,-,hm,-⟩ := h.call_terminateFromFault hcall
    rw [hm]
    simp only [faulted,TaskManager.wakeSleepingTasks]
    rw [(clamp_frame _).1]
    exact ((h.userFirst_ensure hfirst esp).eraseIdx _).wake _

end Invariant

theorem Traced.Ran.userFirst {s : Traced} (h : s.Ran) : UserFirst s.manager.tasks := by
  refine (Runs.Reachable.invariant (I := fun s => Consistent s ∧ UserFirst s.manager.tasks)
    ?_ ⟨Or.inl Blank.new,by simp [UserFirst,Traced.new,TaskManager.new]⟩ h).2
  rintro s op t ⟨hblank | hinv,hfirst⟩ hcall
  · refine ⟨hblank.call hcall,?_⟩
    cases op with
    | registerNamedTask name stack =>
      rw [hcall.register.1]
      exact hfirst.push rfl
    | scheduleNext esp => simp [UserFirst,(hblank.scheduleNext hcall).tasks]
    | sleepCurrentTask esp ticks => simp [UserFirst,(hblank.sleepCurrentTask hcall).tasks]
    | killTaskByPid pid => simp [UserFirst,(hblank.killTaskByPid hcall).tasks]
    | terminateFromFault esp => exact absurd hcall hblank.terminateFromFault
  · exact ⟨Or.inr (hinv.call hcall),hinv.userFirst_call hfirst hcall⟩

namespace TaskManager

variable {m : TaskManager}

/-- The task that would be chosen if the current one stayed in the table without being ready. -/
def nextInOrder (m : TaskManager) : Option Task :=
  let held := { m with
    tasks := m.tasks.modify m.currentTaskIdx fun task => { task with state := .terminated } }
  (held.nextReadyAfter held.currentTaskIdx).bind fun idx => held.tasks[idx]?

def withoutCurrent (m : TaskManager) : TaskManager :=
  clamp { m with tasks := m.tasks.eraseIdx m.currentTaskIdx }

theorem nextReadyAfter_succ {i : ℕ} (hlt : i+1 < m.tasks.length) (hready : m.readyAt (i+1) = true) :
    m.nextReadyAfter i = some (i+1) := by
  refine (CyclicScan.scan_eq_some (by omega)).mpr ⟨hlt,hready,?_⟩
  intro k _ hnearer
  have hone : CyclicScan.ahead m.tasks.length i (i+1) = 1 := by simp [CyclicScan.ahead]
  have hpos := CyclicScan.ahead_pos (j := k) (show i < m.tasks.length by omega)
  omega

theorem nextInOrder_eq (hcur : m.currentTaskIdx = 0) {next : Task} (hget : m.tasks[1]? = some next)
    (hready : next.state = .ready) : m.nextInOrder = some next := by
  have hlt := (List.getElem?_eq_some_iff.mp hget).1
  have hheld : (m.tasks.modify 0 fun task => { task with state := .terminated })[1]? = some next := by
    simp [hget]
  unfold nextInOrder
  simp only [hcur]
  rw [nextReadyAfter_succ (by simpa using hlt) ((readyAt_iff _ _).mpr ⟨next,hheld,hready⟩)]
  exact hheld

/-- The search over the shortened table starts behind the successor. -/
theorem withoutCurrent_skips (hcur : m.currentTaskIdx = 0) {second : Task}
    (hget : m.tasks[2]? = some second) (hready : second.state = .ready) {idx : ℕ}
    (hnext : m.withoutCurrent.nextReadyAfter m.withoutCurrent.currentTaskIdx = some idx) :
    m.withoutCurrent.tasks[idx]? = some second := by
  have hlt := (List.getElem?_eq_some_iff.mp hget).1
  have hm : m.withoutCurrent = { m with tasks := m.tasks.eraseIdx 0, currentTaskIdx := 0 } := by
    rw [withoutCurrent,hcur]
    unfold clamp
    split_ifs
    · rfl
    · rfl
  have hshort : (m.tasks.eraseIdx 0)[1]? = some second := by simpa [List.getElem?_eraseIdx] using hget
  rw [hm] at hnext ⊢
  have hsecond := nextReadyAfter_succ (m := { m with tasks := m.tasks.eraseIdx 0, currentTaskIdx := 0 })
    (i := 0) (List.getElem?_eq_some_iff.mp hshort).1 ((readyAt_iff _ _).mpr ⟨second,hshort,hready⟩)
  obtain rfl := Option.some.inj (hsecond.symm.trans hnext)
  exact hshort

theorem switchedAway_eq_withoutCurrent {current : Task} (hcur : m.tasks[m.currentTaskIdx]? = some current)
    (hdead : current.state = .terminated) (esp : UInt32) : m.switchedAway esp = m.withoutCurrent := by
  simp [switchedAway,withoutCurrent,hcur,hdead]

theorem faulted_eq_withoutCurrent (m : TaskManager) (esp : UInt32) :
    m.faulted esp = (m.ensureMainTaskTracked esp).wakeSleepingTasks.withoutCurrent := by
  simp only [faulted,withoutCurrent,clamp,wakeSleepingTasks,List.eraseIdx_map,List.length_map]
  split_ifs <;> rfl

end TaskManager

theorem Invariant.withoutCurrent_skips {s : Traced} (h : Invariant s)
    (hfirst : UserFirst s.manager.tasks) {current : Task}
    (hcur : s.manager.tasks[s.manager.currentTaskIdx]? = some current)
    (huser : current.privilege = .user) (hlen : 2 < s.manager.tasks.length) {idx : ℕ} {selected : Task}
    (hnext : s.manager.withoutCurrent.nextReadyAfter s.manager.withoutCurrent.currentTaskIdx = some idx)
    (hget : s.manager.withoutCurrent.tasks[idx]? = some selected) :
    ∃ expected, s.manager.nextInOrder = some expected ∧ selected.id ≠ expected.id := by
  have hzero := hfirst.eq_zero hcur huser
  have hone : s.manager.tasks[1]? = some s.manager.tasks[1] := by simp
  have htwo : s.manager.tasks[2]? = some s.manager.tasks[2] := by simp
  have hready {i : ℕ} {task : Task} (hget : s.manager.tasks[i+1]? = some task) : task.state = .ready := by
    apply h.kernel_ready task (List.mem_of_getElem? hget)
    cases hp : task.privilege with
    | kernel => rfl
    | user => exact absurd (hfirst.eq_zero hget hp) (by omega)
  refine ⟨_,TaskManager.nextInOrder_eq hzero hone (hready hone),?_⟩
  have hselected := TaskManager.withoutCurrent_skips hzero htwo (hready htwo) hnext
  obtain rfl := Option.some.inj (hget.symm.trans hselected)
  intro hid
  exact absurd (h.eq_of_id htwo hone hid) (by omega)

/-- Both removal paths disturb the round-robin order in every reached state with two other
tasks: the task selected is never the next one in order. -/
theorem removal_skips_next_in_order {s : Traced} (h : s.Ran) (esp : UInt32)
    (hothers : 2 < (s.manager.ensureMainTaskTracked esp).tasks.length) :
    ((∃ current, s.manager.tasks[s.manager.currentTaskIdx]? = some current ∧
        current.state = .terminated) →
      ∃ sp after selected expected, s.manager.scheduleNext esp = .ok (sp,after) ∧
        after.tasks[after.currentTaskIdx]? = some selected ∧
        (s.manager.ticked esp).nextInOrder = some expected ∧ selected.id ≠ expected.id) ∧
    (s.UserRuns →
      ∃ sp after selected expected, s.manager.terminateCurrentUserTaskFromFault esp = .ok (sp,after) ∧
        after.tasks[after.currentTaskIdx]? = some selected ∧
        (s.manager.ensureMainTaskTracked esp).wakeSleepingTasks.nextInOrder = some expected ∧
        selected.id ≠ expected.id) := by
  rcases h.consistent with hblank | hinv
  · simp [ensureMainTaskTracked,hblank.untracked,hblank.tasks] at hothers
  constructor
  · rintro ⟨current,hcur,hdead⟩
    have hmem := List.mem_of_getElem? hcur
    have huser : current.privilege = .user := by
      cases hp : current.privilege with
      | user => rfl
      | kernel => simp [hinv.kernel_ready current hmem hp] at hdead
    have ht := hinv.tracked_of_user hmem huser
    have htasks : (s.manager.ticked esp).tasks = s.manager.tasks.map (wake (s.manager.tickCount+1)) := by
      simp [ticked,ensureMainTaskTracked,ht,wakeSleepingTasks]
    have hidx : (s.manager.ticked esp).currentTaskIdx = s.manager.currentTaskIdx := by
      simp [ticked,ensureMainTaskTracked,ht,wakeSleepingTasks]
    have hcur' : (s.manager.ticked esp).tasks[(s.manager.ticked esp).currentTaskIdx]? =
        some (wake (s.manager.tickCount+1) current) := by simp [htasks,hidx,hcur]
    obtain ⟨idx,selected,hswitch⟩ := hinv.scheduleNext esp
    have hnext := hswitch.next
    have hget := hswitch.selected
    rw [switchedAway_eq_withoutCurrent hcur' ((wake_terminated_iff _ _).mpr hdead)] at hnext hget
    have hlen : 2 < (s.manager.ticked esp).tasks.length := by
      simpa [htasks,ensureMainTaskTracked,ht] using hothers
    have hfirst : UserFirst (s.manager.ticked esp).tasks := by
      rw [htasks]
      exact h.userFirst.wake _
    obtain ⟨expected,horder,hne⟩ := (hinv.ticked esp).withoutCurrent_skips hfirst hcur' (by simpa using huser)
      hlen hnext hget
    exact ⟨_,_,selected,expected,hswitch.returns,hswitch.selected,horder,hne⟩
  · intro hruns
    have hwoken := (hinv.ensure esp).wakeSleepingTasks
    obtain ⟨current,hcur,-⟩ := (hinv.ensure esp).current (s.ensure_tracked esp)
    have huser := hinv.current_user hruns esp hcur
    obtain ⟨-,idx,selected,hswitch⟩ := hinv.terminateFromFault hruns esp
    have hnext := hswitch.next
    have hget := hswitch.selected
    rw [faulted_eq_withoutCurrent] at hnext hget
    have hcur' : (s.ensure esp).manager.wakeSleepingTasks.tasks[(s.ensure esp).manager.currentTaskIdx]? =
        some (wake (s.ensure esp).manager.tickCount current) := by simp [wakeSleepingTasks,hcur]
    have hlen : 2 < (s.ensure esp).manager.wakeSleepingTasks.tasks.length := by
      simpa [wakeSleepingTasks,Traced.ensure] using hothers
    obtain ⟨expected,horder,hne⟩ := hwoken.withoutCurrent_skips
      ((hinv.userFirst_ensure h.userFirst esp).wake _) hcur' (by simpa using huser) hlen hnext hget
    exact ⟨_,_,selected,expected,hswitch.returns,hswitch.selected,horder,hne⟩

/-- Two kernel threads are registered, and the user thread, killed while it runs, awaits
its removal. -/
def killedMain : Traced where
  manager := {
    tasks := [{ Task.placeholderMain 0x9000 with state := .terminated },
      Task.new 2 "background_thread" .kernel 0x180000,Task.new 3 "worker" .kernel 0x190000]
    currentTaskIdx := 0
    nextTaskId := 4
    tickCount := 0
    mainTaskTracked := true }
  running := 1
  lastEsp := fun _ => none
  created := Function.update (Function.update (Function.update (fun _ => none) 2 (some 0x181fd4)) 3
    (some 0x191fd4)) 1 (some 0x9000)
  registered := [(2,"background_thread"),(3,"worker")]

theorem killedMain_ran : killedMain.Ran :=
  .head ⟨.registerNamedTask "background_thread" 0x180000,rfl⟩ <|
  .head ⟨.registerNamedTask "worker" 0x190000,rfl⟩ <|
  .head ⟨.sleepCurrentTask 0x9000 5,rfl⟩ <|
  .single ⟨.killTaskByPid 1,rfl⟩

def selectedBy (call : Except Panic (UInt32 × TaskManager)) : Option ℕ :=
  (call.toOption.bind fun result => result.2.tasks[result.2.currentTaskIdx]?).map Task.id

/-- Pid 2 is next in order and pid 3 is selected, on both paths. -/
theorem removal_killedMain : killedMain.Ran ∧
    selectedBy (killedMain.manager.scheduleNext 0x9000) = some 3 ∧
    (killedMain.manager.ticked 0x9000).nextInOrder.map Task.id = some 2 ∧
    selectedBy (killedMain.manager.terminateCurrentUserTaskFromFault 0x9000) = some 3 ∧
    (killedMain.manager.ensureMainTaskTracked 0x9000).wakeSleepingTasks.nextInOrder.map Task.id =
      some 2 := by
  refine ⟨killedMain_ran,?_,by decide,?_,by decide⟩ <;>
    with_unfolding_all rfl

theorem removal_skips_killedMain : killedMain.Ran ∧
    2 < (killedMain.manager.ensureMainTaskTracked 0x9000).tasks.length ∧
    ∃ sp after selected expected, killedMain.manager.scheduleNext 0x9000 = .ok (sp,after) ∧
      after.tasks[after.currentTaskIdx]? = some selected ∧
      (killedMain.manager.ticked 0x9000).nextInOrder = some expected ∧ selected.id ≠ expected.id :=
  ⟨killedMain_ran,by decide,(removal_skips_next_in_order killedMain_ran 0x9000 (by decide)).1 ⟨_,rfl,rfl⟩⟩

end Scheduler
end EnosKernel
