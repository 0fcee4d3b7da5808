import EnosKernel.SchedulerCalls

/-! The table as a ring of rows, an id and a state each, in which the initial thread is
counted from the start.  Every call is one of a few moves of the ring; what tasks wait
for and how long is decided there. -/
namespace EnosKernel
namespace Scheduler

open TaskManager

def Task.row (task : Task) : ℕ × TaskState := (task.id,task.state)

def rowReady (row : ℕ × TaskState) : Bool := row.2.isReady

def TaskState.wake (tick : UInt64) : TaskState → TaskState
  | .sleeping wakeAt => if tick ≥ wakeAt then .ready else .sleeping wakeAt
  | state => state

def wakeRow (tick : UInt64) (row : ℕ × TaskState) : ℕ × TaskState := (row.1,row.2.wake tick)

theorem row_wake (tick : UInt64) (task : Task) : (wake tick task).row = wakeRow tick task.row := by
  cases hstate : task.state with
  | sleeping wakeAt =>
    by_cases hdue : tick ≥ wakeAt <;>
      simp [TaskManager.wake,Task.row,wakeRow,TaskState.wake,hstate,hdue]
  | _ => simp [TaskManager.wake,Task.row,wakeRow,TaskState.wake,hstate]

namespace TaskManager

variable {m : TaskManager}

def ring (m : TaskManager) : Ring (ℕ × TaskState) where
  rows := m.tasks.map Task.row
  place := m.currentTaskIdx

theorem getElem?_ring {idx : ℕ} {task : Task} (h : m.tasks[idx]? = some task) :
    m.ring.rows[idx]? = some task.row := by simp [ring,h]

theorem ring_wakeSleepingTasks (m : TaskManager) :
    m.wakeSleepingTasks.ring = m.ring.map (wakeRow m.tickCount) := by
  simp [ring,wakeSleepingTasks,Ring.map,Function.comp_def,row_wake]

theorem ring_dropCurrent (m : TaskManager) :
    (clamp { m with tasks := m.tasks.eraseIdx m.currentTaskIdx }).ring = m.ring.dropCurrent := by
  unfold clamp
  split_ifs with hend <;>
    simp_all [ring,Ring.dropCurrent,List.eraseIdx_map]

theorem ring_set (m : TaskManager) (new : Task) :
    ({ m with tasks := m.tasks.set m.currentTaskIdx new } : TaskManager).ring = m.ring.set new.row := by
  simp [ring,Ring.set,List.map_set]

theorem ring_set_self {current new : Task} (h : m.tasks[m.currentTaskIdx]? = some current)
    (hrow : new.row = current.row) :
    ({ m with tasks := m.tasks.set m.currentTaskIdx new } : TaskManager).ring = m.ring := by
  obtain ⟨hlt,rfl⟩ := List.getElem?_eq_some_iff.mp h
  have hlt' : m.currentTaskIdx < (m.tasks.map Task.row).length := by simpa using hlt
  have hself : (m.tasks.map Task.row)[m.currentTaskIdx] = new.row := by simp [hrow]
  simp only [ring,List.map_set]
  rw [← hself,List.set_getElem_self]

theorem ring_switchedAway {current : Task} (h : m.tasks[m.currentTaskIdx]? = some current) (esp : UInt32) :
    (m.switchedAway esp).ring = if current.state = .terminated then m.ring.dropCurrent else m.ring := by
  simp only [switchedAway,h]
  split_ifs with hdead
  · exact ring_dropCurrent m
  · exact ring_set_self h rfl

theorem ring_advance {idx : ℕ} (h : m.nextReadyAfter m.currentTaskIdx = some idx) :
    m.ring.advance rowReady = some ({ m with currentTaskIdx := idx } : TaskManager).ring := by
  have hready : m.ring.readyAt rowReady = m.readyAt := by
    funext i
    simp only [Ring.readyAt,ring,List.getElem?_map,readyAt]
    cases m.tasks[i]? <;> rfl
  have hscan : CyclicScan.scan m.ring.rows.length m.ring.place (m.ring.readyAt rowReady) = some idx := by
    rw [hready]
    simpa [ring,nextReadyAfter_eq_scan] using h
  rw [Ring.advance,hscan]
  rfl

@[simp] theorem tickCount_ensure (m : TaskManager) (esp : UInt32) :
    (m.ensureMainTaskTracked esp).tickCount = m.tickCount := by
  unfold ensureMainTaskTracked
  split <;> rfl

@[simp] theorem tickCount_clamp (m : TaskManager) : m.clamp.tickCount = m.tickCount := by
  unfold clamp
  split <;> rfl

theorem tickCount_switchedAway (m : TaskManager) (esp : UInt32) :
    (m.switchedAway esp).tickCount = m.tickCount := by
  unfold switchedAway
  split
  · rfl
  · split <;> simp

theorem tickCount_sleepCurrentTask (m : TaskManager) (esp ticks : UInt32) :
    (m.sleepCurrentTask esp ticks).2.tickCount = m.tickCount := by
  unfold sleepCurrentTask
  dsimp only
  split_ifs <;> simp

theorem tickCount_killTaskByPid {pid : ℕ} {answer : Except String KillTaskResult} {after : TaskManager}
    (h : m.killTaskByPid pid = .ok (answer,after)) : after.tickCount = m.tickCount := by
  rcases killTaskByPid_cases m pid with ⟨reason,hcall,-⟩ | ⟨task,-,-,-,hcall⟩ | ⟨idx,task,-,-,-,-,hcall⟩
  all_goals
    cases h.symm.trans hcall
  · rfl
  · rfl
  · unfold clampUnlessEmpty
    split <;> rfl

end TaskManager

namespace Traced

/-- The ring of a traced state; `esp` plays no part in it. -/
def ring (s : Traced) : Ring (ℕ × TaskState) := (s.manager.ensureMainTaskTracked 0).ring

theorem ring_eq (s : Traced) (esp : UInt32) : s.ring = (s.manager.ensureMainTaskTracked esp).ring := by
  unfold ring ensureMainTaskTracked
  split_ifs <;> rfl

theorem ring_ticked (s : Traced) (esp : UInt32) :
    (s.manager.ticked esp).ring = s.ring.map (wakeRow (s.manager.tickCount+1)) := by
  rw [TaskManager.ticked,ring_wakeSleepingTasks,s.ring_eq esp]
  unfold ensureMainTaskTracked
  split_ifs <;> rfl

theorem ring_of_manager {s : Traced} {m : TaskManager} (hm : s.manager = m)
    (ht : m.mainTaskTracked = true) : s.ring = m.ring := by
  simp [ring,ensureMainTaskTracked,hm,ht]

end Traced

theorem Invariant.ticked_current {s : Traced} (h : Invariant s) (esp : UInt32) : ∃ current,
    (s.ensure esp).manager.tasks[(s.ensure esp).manager.currentTaskIdx]? = some current ∧
    current.id = s.running ∧
    (s.manager.ticked esp).tasks[(s.manager.ticked esp).currentTaskIdx]? =
      some (wake (s.manager.tickCount+1) current) := by
  obtain ⟨current,hcur,hid⟩ := (h.ensure esp).current (s.ensure_tracked esp)
  refine ⟨current,hcur,hid,?_⟩
  simp only [Traced.ensure] at hcur
  unfold TaskManager.ticked TaskManager.wakeSleepingTasks ensureMainTaskTracked at *
  split_ifs at * <;> simp_all

theorem Blank.ring {s : Traced} (h : Blank s) : s.ring = ⟨[(1,.ready)],0⟩ := by
  simp [Traced.ring,TaskManager.ring,ensureMainTaskTracked,h.untracked,h.tasks,Task.row,
    Task.placeholderMain]

namespace Consistent

variable {s t : Traced}

theorem current_row (h : Consistent s) : ∃ state, s.ring.rows[s.ring.place]? = some (s.running,state) := by
  rcases h with hblank | hinv
  · exact ⟨.ready,by simp [hblank.ring,hblank.running]⟩
  · obtain ⟨current,hcur,hid⟩ := (hinv.ensure 0).current (s.ensure_tracked 0)
    exact ⟨current.state,by rw [← show current.id = s.running from hid]; exact getElem?_ring hcur⟩

theorem place_lt (h : Consistent s) : s.ring.place < s.ring.rows.length := by
  obtain ⟨state,hrow⟩ := h.current_row
  exact (List.getElem?_eq_some_iff.mp hrow).1

theorem ids_nodup (h : Consistent s) : (s.ring.rows.map Prod.fst).Nodup := by
  rcases h with hblank | hinv
  · simp [hblank.ring]
  · simpa [Traced.ring,TaskManager.ring,Task.row,Function.comp_def] using
      show ((s.manager.ensureMainTaskTracked 0).tasks.map Task.id).Nodup from (hinv.ensure 0).ids_nodup

theorem eq_of_id (h : Consistent s) {i j id : ℕ} {a b : TaskState} (hi : s.ring.rows[i]? = some (id,a))
    (hj : s.ring.rows[j]? = some (id,b)) : i = j :=
  KeyedList.eq_of_getElem? h.ids_nodup hi hj rfl

theorem ring_register {name : String} {stack : UInt32} (hcall : s.Call (.registerNamedTask name stack) t) :
    t.ring = s.ring.push (s.manager.nextTaskId,.ready) := by
  rw [Traced.ring,hcall.register.1,Traced.ring]
  unfold ensureMainTaskTracked
  split_ifs <;> simp [TaskManager.ring,Ring.push,Task.row,Task.new]

theorem ring_sleep (h : Consistent s) {esp ticks : UInt32} (hcall : s.Call (.sleepCurrentTask esp ticks) t) :
    ((s.manager.sleepCurrentTask esp ticks).1 = false ∧ t.ring = s.ring) ∨
    ((s.manager.sleepCurrentTask esp ticks).1 = true ∧ ∃ state,
      s.ring.rows[s.ring.place]? = some (s.running,state) ∧ state ≠ .terminated ∧
      t.ring = s.ring.set (s.running,.sleeping (s.manager.tickCount+max 1 ticks.toUInt64))) := by
  rcases h with hblank | hinv
  · refine Or.inl ⟨by simp [TaskManager.sleepCurrentTask,hblank.tasks],?_⟩
    rw [hblank.ring,(hblank.sleepCurrentTask hcall).ring]
  · have htrack := s.ensure_tracked esp
    have htick : (s.ensure esp).manager.tickCount = s.manager.tickCount := by
      simp only [Traced.ensure,ensureMainTaskTracked]
      split_ifs <;> rfl
    have hring : s.ring = (s.ensure esp).manager.ring := s.ring_eq esp
    obtain ⟨hm,-⟩ := hcall.sleep
    obtain ⟨current,hcur,hid,⟨-,hsleep⟩ | ⟨⟨-,hlive⟩,hsleep⟩⟩ := hinv.sleepCurrentTask_cases esp ticks
    · rw [hsleep] at hm
      refine Or.inl ⟨by rw [hsleep],?_⟩
      rw [Traced.ring_of_manager hm htrack,hring]
    · rw [hsleep] at hm
      refine Or.inr ⟨by rw [hsleep],current.state,?_,hlive,?_⟩
      · rw [hring,← hid]
        exact getElem?_ring hcur
      · rw [Traced.ring_of_manager hm htrack,ring_set,hring]
        simp only [Task.row,hid,htick]

theorem ring_kill (h : Consistent s) {pid : ℕ} (hcall : s.Call (.killTaskByPid pid) t) :
    t.ring = s.ring ∨
    (∃ result after, s.manager.killTaskByPid pid = .ok (.ok result,after)) ∧
      ((pid = s.running ∧ t.ring = s.ring.set (pid,.terminated)) ∨
        ∃ idx state, idx ≠ s.ring.place ∧ s.ring.rows[idx]? = some (pid,state) ∧
          t.ring = s.ring.drop idx) := by
  rcases h with hblank | hinv
  · exact Or.inl (by rw [hblank.ring,(hblank.killTaskByPid hcall).ring])
  · rcases hinv.call_kill hcall with ⟨reason,-,hm⟩ | ⟨task,hkill,hget,hid,huser,hm⟩ |
        ⟨idx,task,hkill,hne,hget,hid,huser,hm⟩
    · exact Or.inl (by rw [Traced.ring,hm,Traced.ring])
    · have htrack := hinv.tracked_of_user (List.mem_of_getElem? hget) huser
      obtain ⟨current,hcur,hrun⟩ := hinv.current htrack
      obtain rfl := Option.some.inj (hget.symm.trans hcur)
      refine Or.inr ⟨⟨_,_,hkill⟩,Or.inl ⟨hid.symm.trans hrun,?_⟩⟩
      rw [Traced.ring_of_manager hm htrack,ring_set,Traced.ring_of_manager rfl htrack]
      simp only [Task.row,hid]
    · have htrack := hinv.tracked_of_user (List.mem_of_getElem? hget) huser
      rw [Traced.ring_of_manager (s := s) rfl htrack]
      refine Or.inr ⟨⟨_,_,hkill⟩,Or.inr ⟨idx,task.state,hne,hid ▸ getElem?_ring hget,?_⟩⟩
      rw [Traced.ring_of_manager hm htrack]
      have hplace : indexAfterRemoval idx s.manager.currentTaskIdx =
          CyclicScan.shift idx s.manager.currentTaskIdx := by
        unfold indexAfterRemoval CyclicScan.shift
        split_ifs <;> omega
      simp [TaskManager.ring,Ring.drop,List.eraseIdx_map,hplace]

/-- A tick wakes the rows that are due, drops the running one if it is terminated and
gives the turn to the next ready row. -/
theorem ring_tick (h : Consistent s) {esp : UInt32} (hcall : s.Call (.scheduleNext esp) t) :
    ∃ state, s.ring.rows[s.ring.place]? = some (s.running,state) ∧
      (if state = .terminated then (s.ring.map (wakeRow (s.manager.tickCount+1))).dropCurrent
        else s.ring.map (wakeRow (s.manager.tickCount+1))).advance rowReady = some t.ring := by
  rcases h with hblank | hinv
  · refine ⟨.ready,by simp [hblank.ring,hblank.running],?_⟩
    rw [hblank.ring,(hblank.scheduleNext hcall).ring,if_neg (by simp)]
    simp [Ring.advance,Ring.map,CyclicScan.scan,Ring.readyAt,wakeRow,TaskState.wake,rowReady,
      TaskState.isReady]
  · obtain ⟨current,hcur,hid,hticked⟩ := hinv.ticked_current esp
    obtain ⟨idx,task,hswitch,hm,-⟩ := hinv.call_scheduleNext hcall
    have hdead : (wake (s.manager.tickCount+1) current).state = .terminated ↔
        current.state = .terminated := wake_terminated_iff _ _
    refine ⟨current.state,?_,?_⟩
    · rw [s.ring_eq esp,← show current.id = s.running from hid]
      exact getElem?_ring hcur
    · rw [Traced.ring_of_manager hm hswitch.parked.tracked,← s.ring_ticked esp,
        ← ring_advance hswitch.next,ring_switchedAway hticked]
      simp only [hdead]

theorem ring_fault (h : Consistent s) {esp : UInt32} (hcall : s.Call (.terminateFromFault esp) t) :
    (s.ring.dropCurrent.map (wakeRow s.manager.tickCount)).advance rowReady = some t.ring := by
  rcases h with hblank | hinv
  · exact absurd hcall hblank.terminateFromFault
  · obtain ⟨-,idx,task,hswitch,hm,-⟩ := hinv.call_terminateFromFault hcall
    have hdropped : (s.manager.faulted esp).ring =
        s.ring.dropCurrent.map (wakeRow s.manager.tickCount) := by
      rw [s.ring_eq esp,← ring_dropCurrent,faulted,ring_wakeSleepingTasks]
      congr 2
      unfold clamp ensureMainTaskTracked
      split_ifs <;> rfl
    rw [Traced.ring_of_manager hm hswitch.parked.tracked,← hdropped]
    exact ring_advance hswitch.next

theorem selected_ready (h : Consistent s) {op : Op} (hcall : s.Call op t) (hsel : op.selects = true) :
    t.ring.rows[t.ring.place]? = some (t.running,.ready) := by
  obtain ⟨state,hcur⟩ := (h.call hcall).current_row
  have hadvance : ∃ r : Ring (ℕ × TaskState), r.advance rowReady = some t.ring := by
    cases op with
    | scheduleNext esp =>
      obtain ⟨_,-,hadvance⟩ := h.ring_tick hcall
      exact ⟨_,hadvance⟩
    | terminateFromFault esp => exact ⟨_,h.ring_fault hcall⟩
    | _ => simp [Op.selects] at hsel
  obtain ⟨r,hadvance⟩ := hadvance
  obtain ⟨-,row,hrow,hready⟩ := Ring.advance_ready hadvance
  obtain rfl := Option.some.inj (hrow.symm.trans hcur)
  rw [hcur,(TaskState.isReady_iff state).mp hready]

theorem tickCount_call (h : Consistent s) {op : Op} (hcall : s.Call op t) :
    t.manager.tickCount = if op.ticks then s.manager.tickCount+1 else s.manager.tickCount := by
  cases op with
  | registerNamedTask name stack =>
    rw [hcall.register.1]
    rfl
  | scheduleNext esp =>
    rcases h with hblank | hinv
    · simp only [Traced.Call,Traced.apply,TaskManager.scheduleNext,hblank.tasks,List.isEmpty_nil,if_true,
        bind,Except.bind,Except.ok.injEq] at hcall
      rw [← hcall]
      rfl
    · obtain ⟨idx,task,-,hm,-⟩ := hinv.call_scheduleNext hcall
      rw [hm]
      exact (tickCount_switchedAway _ esp).trans (tickCount_ensure _ esp)
  | sleepCurrentTask esp ticks =>
    rw [hcall.sleep.1]
    exact tickCount_sleepCurrentTask s.manager esp ticks
  | killTaskByPid pid =>
    obtain ⟨⟨answer,hkill⟩,-⟩ := hcall.kill
    exact tickCount_killTaskByPid hkill
  | terminateFromFault esp =>
    rcases h with hblank | hinv
    · exact absurd hcall hblank.terminateFromFault
    · obtain ⟨-,idx,task,-,hm,-⟩ := hinv.call_terminateFromFault hcall
      rw [hm]
      exact (tickCount_clamp _).trans (tickCount_ensure _ esp)

end Consistent
end Scheduler
end EnosKernel
