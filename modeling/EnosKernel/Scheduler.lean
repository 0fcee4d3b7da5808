import EnosKernel.CyclicScan
import EnosKernel.MachineArith

/-! The task table of `task.rs`, function by function.  A `Vec<Task>` is a list, an
out-of-range index or an explicit `panic!` is an `Except.error`, and the address of
the boxed stack, which the heap chooses, is an argument of task creation. -/
namespace EnosKernel
namespace Scheduler

def stackSize : UInt32 := 8192

inductive TaskPrivilege
  | kernel | user
  deriving DecidableEq, Repr

inductive TaskState
  | ready | sleeping (wakeAt : UInt64) | terminated
  deriving DecidableEq, Repr

def TaskState.isReady : TaskState → Bool
  | .ready => true
  | _ => false

@[simp] theorem TaskState.isReady_iff (s : TaskState) : s.isReady = true ↔ s = .ready := by
  cases s <;> simp [TaskState.isReady]

structure Task where
  id : ℕ
  name : String
  privilege : TaskPrivilege
  state : TaskState
  stackPtr : UInt32
  runTicks : UInt64
  deriving DecidableEq, Repr

/-- `Task::new`: the saved pointer sits below EFLAGS, CS, EIP and the eight words of
the `pushad` frame written at the top of the fresh stack. -/
def Task.new (id : ℕ) (name : String) (privilege : TaskPrivilege) (stack : UInt32) : Task where
  id := id
  name := name
  privilege := privilege
  state := .ready
  stackPtr := stack + stackSize - 4*3 - 4*8
  runTicks := 0

def Task.placeholderMain (stackPtr : UInt32) : Task where
  id := 1
  name := "user_main"
  privilege := .user
  state := .ready
  stackPtr := stackPtr
  runTicks := 0

def TaskPrivilege.label : TaskPrivilege → String
  | .kernel => "kernel"
  | .user => "user"

@[simp] theorem TaskPrivilege.label_eq_user (p : TaskPrivilege) : p.label = "user" ↔ p = .user := by
  cases p <;> simp [TaskPrivilege.label]

def Task.stateLabel (task : Task) (isCurrent : Bool) : String :=
  match task.state with
  | .ready => if isCurrent then "running" else "ready"
  | .sleeping _ => "sleep"
  | .terminated => "dead"

structure TaskManager where
  tasks : List Task
  currentTaskIdx : ℕ
  nextTaskId : ℕ
  tickCount : UInt64
  mainTaskTracked : Bool
  deriving DecidableEq, Repr

inductive KillTaskResult
  | killedNow | markedForTermination
  deriving DecidableEq, Repr

/-- `self.tasks[idx]`. -/
def indexTask (tasks : List Task) (idx : ℕ) : Except Panic Task :=
  match tasks[idx]? with
  | some task => .ok task
  | none => .error .indexOutOfBounds

/-- `self.tasks.remove(idx)`. -/
def removeTask (tasks : List Task) (idx : ℕ) : Except Panic (List Task) :=
  if idx < tasks.length then .ok (tasks.eraseIdx idx) else .error .indexOutOfBounds

theorem indexTask_ok {tasks : List Task} {idx : ℕ} {task : Task} (h : tasks[idx]? = some task) :
    indexTask tasks idx = .ok task := by simp [indexTask,h]

theorem removeTask_ok {tasks : List Task} {idx : ℕ} (h : idx < tasks.length) :
    removeTask tasks idx = .ok (tasks.eraseIdx idx) := if_pos h

namespace TaskManager

def new : TaskManager where
  tasks := []
  currentTaskIdx := 0
  nextTaskId := 2
  tickCount := 0
  mainTaskTracked := false

def ensureMainTaskTracked (m : TaskManager) (currentEsp : UInt32) : TaskManager :=
  if m.mainTaskTracked then m
  else { m with
    tasks := Task.placeholderMain currentEsp :: m.tasks
    mainTaskTracked := true
    currentTaskIdx := 0 }

/-- One turn of the wake-up pass. -/
def wake (tickCount : UInt64) (task : Task) : Task :=
  match task.state with
  | .sleeping wakeAt => if tickCount ≥ wakeAt then { task with state := .ready } else task
  | _ => task

def wakeSleepingTasks (m : TaskManager) : TaskManager :=
  { m with tasks := m.tasks.map (wake m.tickCount) }

/-- The `while` loop of `cleanup_terminated_non_current` from index `idx` on. -/
def cleanupLoop (m : TaskManager) (idx : ℕ) : TaskManager :=
  if h : idx < m.tasks.length then
    if idx = m.currentTaskIdx then cleanupLoop m (idx+1)
    else if m.tasks[idx].state = .terminated then
      cleanupLoop { m with
        tasks := m.tasks.eraseIdx idx
        currentTaskIdx :=
          if idx < m.currentTaskIdx ∧ 0 < m.currentTaskIdx then m.currentTaskIdx-1
          else m.currentTaskIdx } idx
    else cleanupLoop m (idx+1)
  else m
termination_by m.tasks.length - idx
decreasing_by
  · omega
  · simp only [List.length_eraseIdx_of_lt h]
    omega
  · omega

/-- `if current_task_idx >= len && !is_empty { current_task_idx = 0 }`. -/
def clampUnlessEmpty (m : TaskManager) : TaskManager :=
  if m.tasks.length ≤ m.currentTaskIdx ∧ ¬ m.tasks.isEmpty then { m with currentTaskIdx := 0 } else m

/-- `if current_task_idx >= len { current_task_idx = 0 }`. -/
def clamp (m : TaskManager) : TaskManager :=
  if m.tasks.length ≤ m.currentTaskIdx then { m with currentTaskIdx := 0 } else m

def cleanupTerminatedNonCurrent (m : TaskManager) : TaskManager :=
  (m.cleanupLoop 0).clampUnlessEmpty

/-- `self.tasks.iter().position(|task| task.state.is_ready())`. -/
def firstReadyIndex (m : TaskManager) : Option ℕ :=
  m.tasks.findIdx? (fun task => task.state.isReady)

def readyAt (m : TaskManager) (idx : ℕ) : Bool :=
  m.tasks[idx]?.any (fun task => task.state.isReady)

/-- The offsets `1..=len` are tried in order, cyclically from `startIdx`. -/
def nextReadyAfter (m : TaskManager) (startIdx : ℕ) : Option ℕ :=
  ((List.range' 1 m.tasks.length).map (fun offset => (startIdx+offset) % m.tasks.length)).find? m.readyAt

/-- The second alternative of the selection: the current task, if it is ready itself. -/
def currentIfReady (m : TaskManager) : Option ℕ :=
  if m.readyAt m.currentTaskIdx then some m.currentTaskIdx else none

def registerNamedTask (m : TaskManager) (name : String) (stack : UInt32) :
    Except Panic TaskManager := do
  let task := Task.new m.nextTaskId name .kernel stack
  let nextTaskId ← MachineArith.add 32 m.nextTaskId 1
  .ok { m with nextTaskId := nextTaskId, tasks := m.tasks ++ [task] }

/-- Selection and resumption, common to the timer and the fault path; `stalled` is the
message of the caller's own panic. -/
def resumeNext (m : TaskManager) (stalled : String) : Except Panic (UInt32 × TaskManager) :=
  match ((m.nextReadyAfter m.currentTaskIdx).or m.currentIfReady).or m.firstReadyIndex with
  | none => .error (.explicit stalled)
  | some nextIdx => do
    let task ← indexTask m.tasks nextIdx
    .ok (task.stackPtr,{ m with currentTaskIdx := nextIdx })

/-- The middle of `schedule_next`: a terminated current task is dropped, any other one
has its stack pointer saved and is charged one tick. -/
def saveOrRetireCurrent (m : TaskManager) (currentEsp : UInt32) : Except Panic TaskManager := do
  let current ← indexTask m.tasks m.currentTaskIdx
  if current.state = .terminated then
    let tasks ← removeTask m.tasks m.currentTaskIdx
    if tasks.isEmpty then .error (.explicit "All tasks terminated")
    else .ok (clamp { m with tasks := tasks })
  else
    let saved := { current with stackPtr := currentEsp, runTicks := current.runTicks+1 }
    .ok { m with tasks := m.tasks.set m.currentTaskIdx saved }

def scheduleNext (m : TaskManager) (currentEsp : UInt32) : Except Panic (UInt32 × TaskManager) :=
  let m := { m with tickCount := m.tickCount+1 }
  if m.tasks.isEmpty then .ok (currentEsp,m)
  else
    let m := (m.ensureMainTaskTracked currentEsp).wakeSleepingTasks.cleanupTerminatedNonCurrent
    if m.tasks.isEmpty then .error (.explicit "Scheduler stalled: no tasks available")
    else do
      let m ← m.clamp.saveOrRetireCurrent currentEsp
      m.cleanupTerminatedNonCurrent.resumeNext "Scheduler stalled: no runnable tasks"

def sleepCurrentTask (m : TaskManager) (currentEsp ticks : UInt32) : Bool × TaskManager :=
  if m.tasks.isEmpty then (false,m)
  else
    let m := m.ensureMainTaskTracked currentEsp
    if m.tasks.isEmpty then (false,m)
    else if h : m.currentTaskIdx < m.tasks.length then
      let current := m.tasks[m.currentTaskIdx]
      if current.privilege ≠ .user then (false,m)
      else if current.state = .terminated then (false,m)
      else
        let sleepTicks : UInt64 := max 1 ticks.toUInt64
        let asleep := { current with
          stackPtr := currentEsp
          state := .sleeping (m.tickCount+sleepTicks) }
        (true,{ m with tasks := m.tasks.set m.currentTaskIdx asleep })
    else (false,m)

def killTaskByPid (m : TaskManager) (pid : ℕ) :
    Except Panic (Except String KillTaskResult × TaskManager) :=
  if pid = 0 then .ok (.error "cannot kill kernel task",m)
  else match m.tasks.findIdx? (fun task => task.id == pid) with
  | none => .ok (.error "pid not found",m)
  | some idx => do
    let task ← indexTask m.tasks idx
    if task.privilege ≠ .user then .ok (.error "cannot kill kernel task",m)
    else if idx = m.currentTaskIdx then
      .ok (.ok .markedForTermination,
        { m with tasks := m.tasks.set idx { task with state := .terminated } })
    else
      let tasks ← removeTask m.tasks idx
      .ok (.ok .killedNow,clampUnlessEmpty { m with
        tasks := tasks
        currentTaskIdx :=
          if idx < m.currentTaskIdx ∧ 0 < m.currentTaskIdx then m.currentTaskIdx-1
          else m.currentTaskIdx })

def terminateCurrentUserTaskFromFault (m : TaskManager) (currentEsp : UInt32) :
    Except Panic (UInt32 × TaskManager) :=
  let m := m.ensureMainTaskTracked currentEsp
  if m.tasks.isEmpty then .error (.explicit "Task list empty while handling user fault")
  else do
    let m := m.clamp
    let current ← indexTask m.tasks m.currentTaskIdx
    if current.privilege ≠ .user then
      .error (.explicit "User-fault path invoked while current task is not user")
    else
      let tasks ← removeTask m.tasks m.currentTaskIdx
      if tasks.isEmpty then .error (.explicit "All tasks terminated after user fault")
      else
        let m := (clamp { m with tasks := tasks }).wakeSleepingTasks.cleanupTerminatedNonCurrent
        m.resumeNext "No runnable task after user fault termination"

structure SchedulerStats where
  totalTicks : UInt64
  totalTasks : ℕ
  currentTaskId : ℕ
  deriving DecidableEq, Repr

/-- The virtual idle task is counted, and so is the initial thread before it is tracked. -/
def stats (m : TaskManager) : SchedulerStats where
  totalTicks := m.tickCount
  totalTasks := if m.mainTaskTracked then m.tasks.length+1 else m.tasks.length+2
  currentTaskId :=
    if m.mainTaskTracked then (m.tasks[m.currentTaskIdx]?.map Task.id).getD 0 else 0

structure ProcessSnapshot where
  id : ℕ
  name : String
  state : String
  privilege : String
  runTicks : UInt64
  deriving DecidableEq, Repr

def snapshotRow (task : Task) (isCurrent : Bool) : ProcessSnapshot where
  id := task.id
  name := task.name
  state := task.stateLabel isCurrent
  privilege := task.privilege.label
  runTicks := task.runTicks

def processSnapshot (m : TaskManager) : List ProcessSnapshot :=
  { id := 0, name := "kernel_idle", state := "idle", privilege := "kernel", runTicks := 0 } ::
  if m.mainTaskTracked then
    m.tasks.mapIdx fun idx task => snapshotRow task (idx == m.currentTaskIdx)
  else
    { id := 1, name := "user_main", state := "running", privilege := "user", runTicks := 0 } ::
      m.tasks.map fun task => snapshotRow task false

/-- Tasks that the cleanup pass keeps wherever they stand. -/
def live (task : Task) : Bool := task.state ≠ .terminated

theorem cleanupLoop_behind (front post : List Task) (m : TaskManager)
    (htasks : m.tasks = front++post) (hcur : m.currentTaskIdx < front.length) :
    m.cleanupLoop front.length = { m with tasks := front++post.filter live } := by
  induction post generalizing front m with
  | nil =>
    rw [cleanupLoop,dif_neg (by simp [htasks])]
    simp [← htasks]
  | cons task post ih =>
    have hlt : front.length < m.tasks.length := by simp [htasks]
    have hget : m.tasks[front.length] = task := by simp [htasks]
    rw [cleanupLoop,dif_pos hlt,if_neg (by omega),hget]
    by_cases ht : task.state = .terminated
    · rw [if_pos ht,if_neg (by omega)]
      have herase : m.tasks.eraseIdx front.length = front++post := by
        simp [htasks,List.eraseIdx_append_of_length_le]
      have hnext := ih front { m with tasks := m.tasks.eraseIdx front.length } herase hcur
      simpa [live,ht] using hnext
    · rw [if_neg ht]
      have hnext := ih (front++[task]) m (by simp [htasks]) (by simp; omega)
      simp only [List.length_append,List.length_singleton] at hnext
      rw [hnext]
      simp [live,ht]

theorem cleanupLoop_ahead (kept pre post : List Task) (current : Task) (m : TaskManager)
    (htasks : m.tasks = kept++pre++current::post)
    (hcur : m.currentTaskIdx = kept.length+pre.length) :
    m.cleanupLoop kept.length = { m with
      tasks := kept++pre.filter live++current::post.filter live
      currentTaskIdx := kept.length+(pre.filter live).length } := by
  induction pre generalizing kept m with
  | nil =>
    have hbehind := cleanupLoop_behind (kept++[current]) post m (by simp [htasks])
      (by simp [hcur])
    simp only [List.length_append,List.length_singleton] at hbehind
    rw [cleanupLoop,dif_pos (by simp [htasks]),if_pos (by simp [hcur]),hbehind]
    simpa using hcur
  | cons task pre ih =>
    have hlt : kept.length < m.tasks.length := by simp [htasks]
    have hget : m.tasks[kept.length] = task := by simp [htasks]
    simp only [List.length_cons] at hcur
    rw [cleanupLoop,dif_pos hlt,if_neg (by omega),hget]
    by_cases ht : task.state = .terminated
    · rw [if_pos ht,if_pos (by omega)]
      have herase : m.tasks.eraseIdx kept.length = kept++pre++current::post := by
        simp [htasks,List.eraseIdx_append_of_length_le]
      have hnext := ih kept { m with
        tasks := m.tasks.eraseIdx kept.length
        currentTaskIdx := m.currentTaskIdx-1 } herase (by simp only; omega)
      simpa [live,ht] using hnext
    · rw [if_neg ht]
      have hnext := ih (kept++[task]) m (by simp [htasks]) (by simp; omega)
      simp only [List.length_append,List.length_singleton] at hnext
      rw [hnext]
      simp [live,ht,Nat.add_assoc,Nat.add_comm 1]

/-- The pass drops exactly the terminated tasks other than the current one, and the
index follows the current task to its new place. -/
theorem cleanupTerminatedNonCurrent_eq (pre post : List Task) (current : Task) (m : TaskManager)
    (htasks : m.tasks = pre++current::post) (hcur : m.currentTaskIdx = pre.length) :
    m.cleanupTerminatedNonCurrent = { m with
      tasks := pre.filter live++current::post.filter live
      currentTaskIdx := (pre.filter live).length } := by
  have h := cleanupLoop_ahead [] pre post current m (by simpa using htasks) (by simpa using hcur)
  simp only [List.length_nil,List.nil_append,Nat.zero_add] at h
  rw [cleanupTerminatedNonCurrent,h,clampUnlessEmpty,if_neg (by simp)]

def survivors (m : TaskManager) : List (Task × ℕ) :=
  m.tasks.zipIdx.filter fun e => e.2 = m.currentTaskIdx ∨ e.1.state ≠ .terminated

theorem filter_zipIdx_eq {place start : ℕ} {tasks : List Task} (h : ∀ e ∈ tasks.zipIdx start, e.2 ≠ place) :
    (tasks.zipIdx start).filter (fun e => e.2 = place ∨ e.1.state ≠ .terminated) =
      (tasks.zipIdx start).filter (live ∘ Prod.fst) := by
  refine List.filter_congr fun e he => ?_
  simp [live,h e he]

theorem map_filter_zipIdx (start : ℕ) (tasks : List Task) :
    ((tasks.zipIdx start).filter (live ∘ Prod.fst)).map Prod.fst = tasks.filter live := by
  rw [← List.filter_map,List.zipIdx_map_fst]

theorem survivors_eq {pre post : List Task} {current : Task} {m : TaskManager}
    (htasks : m.tasks = pre++current::post) (hcur : m.currentTaskIdx = pre.length) :
    m.survivors = pre.zipIdx.filter (live ∘ Prod.fst)++(current,pre.length)::
      (post.zipIdx (pre.length+1)).filter (live ∘ Prod.fst) := by
  have hbefore : ∀ e ∈ pre.zipIdx, e.2 ≠ pre.length := by
    intro e he
    have hlt := List.snd_lt_add_of_mem_zipIdx he
    omega
  have hbehind : ∀ e ∈ post.zipIdx (pre.length+1), e.2 ≠ pre.length := by
    intro e he
    have hle := List.le_snd_of_mem_zipIdx he
    omega
  rw [survivors,htasks,hcur,List.zipIdx_append,List.filter_append,List.zipIdx_cons,List.filter_cons_of_pos (by simp),
    filter_zipIdx_eq hbefore,Nat.zero_add,filter_zipIdx_eq hbehind]

/-- Whatever table it starts from, the pass keeps exactly the tasks it is to keep, in their
order, and the index stays on the task that was current. -/
theorem cleanup_keeps_current (m : TaskManager) (hcur : m.currentTaskIdx < m.tasks.length) :
    m.cleanupTerminatedNonCurrent.tasks = m.survivors.map Prod.fst ∧
    m.survivors[m.cleanupTerminatedNonCurrent.currentTaskIdx]? =
      some (m.tasks[m.currentTaskIdx],m.currentTaskIdx) ∧
    m.cleanupTerminatedNonCurrent.tasks[m.cleanupTerminatedNonCurrent.currentTaskIdx]? =
      some m.tasks[m.currentTaskIdx] ∧
    { m.cleanupTerminatedNonCurrent with tasks := m.tasks, currentTaskIdx := m.currentTaskIdx } = m := by
  have hsplit : m.tasks = m.tasks.take m.currentTaskIdx ++
      m.tasks[m.currentTaskIdx] :: m.tasks.drop (m.currentTaskIdx+1) := by simp
  have hlen : m.currentTaskIdx = (m.tasks.take m.currentTaskIdx).length := by simp; omega
  have hkept := survivors_eq hsplit hlen
  have hcount : ((m.tasks.take m.currentTaskIdx).zipIdx.filter (live ∘ Prod.fst)).length =
      ((m.tasks.take m.currentTaskIdx).filter live).length := by
    rw [← map_filter_zipIdx 0,List.length_map]
  rw [cleanupTerminatedNonCurrent_eq _ _ _ m hsplit hlen]
  refine ⟨?_,?_,by simp,rfl⟩
  · rw [hkept,List.map_append,List.map_cons,map_filter_zipIdx,map_filter_zipIdx]
  · rw [hkept,← hcount,List.getElem?_append_right le_rfl,Nat.sub_self,List.getElem?_cons_zero,← hlen]

def mourning : TaskManager where
  tasks := List.replicate 3 { Task.placeholderMain 0 with state := .terminated }
  currentTaskIdx := 1
  nextTaskId := 2
  tickCount := 0
  mainTaskTracked := true

theorem cleanup_keeps_current_mourning : mourning.survivors.length = 1 ∧
    mourning.survivors[mourning.cleanupTerminatedNonCurrent.currentTaskIdx]? =
      some ({ Task.placeholderMain 0 with state := .terminated },1) :=
  ⟨by decide,(cleanup_keeps_current mourning (by decide)).2.1⟩

theorem cleanupTerminatedNonCurrent_self {m : TaskManager} (hcur : m.currentTaskIdx < m.tasks.length)
    (hlive : ∀ idx task, m.tasks[idx]? = some task → idx ≠ m.currentTaskIdx → live task = true) :
    m.cleanupTerminatedNonCurrent = m := by
  have hsplit : m.tasks = m.tasks.take m.currentTaskIdx ++
      m.tasks[m.currentTaskIdx] :: m.tasks.drop (m.currentTaskIdx+1) := by simp
  have hpre : (m.tasks.take m.currentTaskIdx).filter live = m.tasks.take m.currentTaskIdx := by
    apply List.filter_eq_self.mpr
    intro task htask
    obtain ⟨idx,hidx,hget⟩ := List.mem_take_iff_getElem.mp htask
    exact hlive idx task (by rw [List.getElem?_eq_getElem (by omega),hget]) (by omega)
  have hpost : (m.tasks.drop (m.currentTaskIdx+1)).filter live =
      m.tasks.drop (m.currentTaskIdx+1) := by
    apply List.filter_eq_self.mpr
    intro task htask
    obtain ⟨idx,hidx⟩ := List.mem_iff_getElem?.mp htask
    rw [List.getElem?_drop] at hidx
    exact hlive _ task hidx (by omega)
  rw [cleanupTerminatedNonCurrent_eq _ _ _ m hsplit (by simp; omega),hpre,hpost,← hsplit]
  have hlen : (m.tasks.take m.currentTaskIdx).length = m.currentTaskIdx := by simp; omega
  rw [hlen]

theorem readyAt_iff (m : TaskManager) (idx : ℕ) :
    m.readyAt idx = true ↔ ∃ task, m.tasks[idx]? = some task ∧ task.state = .ready := by
  simp [readyAt,Option.any_eq_true]

theorem nextReadyAfter_eq_scan (m : TaskManager) (startIdx : ℕ) :
    m.nextReadyAfter startIdx = CyclicScan.scan m.tasks.length startIdx m.readyAt := rfl

/-- A ready task anywhere in the table keeps the selection from stalling, and the cyclic
search is the alternative that answers. -/
theorem resumeNext_ok {m : TaskManager} (stalled : String) (hcur : m.currentTaskIdx < m.tasks.length)
    (hready : ∃ task ∈ m.tasks, task.state = .ready) :
    ∃ idx task, m.nextReadyAfter m.currentTaskIdx = some idx ∧ m.tasks[idx]? = some task ∧
      task.state = .ready ∧
      m.resumeNext stalled = .ok (task.stackPtr,{ m with currentTaskIdx := idx }) := by
  obtain ⟨ready,hmem,hstate⟩ := hready
  obtain ⟨place,hplace⟩ := List.mem_iff_getElem?.mp hmem
  have haccepted := (readyAt_iff m place).mpr ⟨ready,hplace,hstate⟩
  obtain ⟨idx,hnext⟩ := CyclicScan.scan_isSome hcur (List.getElem?_eq_some_iff.mp hplace).1 haccepted
  obtain ⟨task,hget,htask⟩ := (readyAt_iff m idx).mp ((CyclicScan.scan_eq_some hcur).mp hnext).2.1
  refine ⟨idx,task,hnext,hget,htask,?_⟩
  rw [resumeNext,nextReadyAfter_eq_scan,hnext]
  simp only [Option.some_or,indexTask_ok hget]
  rfl

/-- Where the current index goes when another task is taken out of the table. -/
def indexAfterRemoval (idx current : ℕ) : ℕ :=
  if idx < current ∧ 0 < current then current-1 else current

theorem getElem?_indexAfterRemoval (tasks : List Task) {idx current : ℕ} (hne : idx ≠ current) :
    (tasks.eraseIdx idx)[indexAfterRemoval idx current]? = tasks[current]? := by
  unfold indexAfterRemoval
  rw [List.getElem?_eraseIdx]
  split_ifs with h₁ h₂ h₂
  · omega
  · congr 1
    omega
  · rfl
  · omega

theorem killTaskByPid_cases (m : TaskManager) (pid : ℕ) :
    (∃ reason, m.killTaskByPid pid = .ok (.error reason,m) ∧
      (pid = 0 ∨ ∀ idx task, m.tasks.findIdx? (fun task => task.id == pid) = some idx →
        m.tasks[idx]? = some task → task.privilege = .kernel)) ∨
    (∃ task, m.tasks[m.currentTaskIdx]? = some task ∧ task.id = pid ∧ task.privilege = .user ∧
      m.killTaskByPid pid = .ok (.ok .markedForTermination,
        { m with tasks := m.tasks.set m.currentTaskIdx { task with state := .terminated } })) ∨
    ∃ idx task, idx ≠ m.currentTaskIdx ∧ m.tasks[idx]? = some task ∧ task.id = pid ∧
      task.privilege = .user ∧
      m.killTaskByPid pid = .ok (.ok .killedNow,clampUnlessEmpty { m with
        tasks := m.tasks.eraseIdx idx
        currentTaskIdx := indexAfterRemoval idx m.currentTaskIdx }) := by
  by_cases hzero : pid = 0
  · exact Or.inl ⟨_,by rw [killTaskByPid,if_pos hzero],Or.inl hzero⟩
  rw [killTaskByPid,if_neg hzero]
  cases hfind : m.tasks.findIdx? (fun task => task.id == pid) with
  | none => exact Or.inl ⟨_,rfl,Or.inr (by simp)⟩
  | some idx =>
    obtain ⟨hlt,hpid,-⟩ := List.findIdx?_eq_some_iff_getElem.mp hfind
    have hget : m.tasks[idx]? = some m.tasks[idx] := by simp [hlt]
    have hid : m.tasks[idx].id = pid := by simpa using hpid
    generalize m.tasks[idx] = task at hget hid
    simp only [indexTask_ok hget,bind,Except.bind]
    by_cases hp : task.privilege = .user
    · rw [if_neg (by simpa using hp)]
      by_cases hidx : idx = m.currentTaskIdx
      · rw [if_pos hidx]
        subst hidx
        exact Or.inr (Or.inl ⟨task,hget,hid,hp,rfl⟩)
      · rw [if_neg hidx,removeTask_ok hlt]
        exact Or.inr (Or.inr ⟨idx,task,hidx,hget,hid,hp,rfl⟩)
    · refine Or.inl ⟨_,if_pos hp,Or.inr ?_⟩
      intro i t hi ht
      rw [Option.some.injEq] at hi
      rw [← hi,hget] at ht
      rw [← Option.some.inj ht]
      cases hk : task.privilege with
      | kernel => rfl
      | user => exact absurd hk hp

end TaskManager
end Scheduler
end EnosKernel
