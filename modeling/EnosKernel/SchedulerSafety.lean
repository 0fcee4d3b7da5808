import EnosKernel.SchedulerRuns
import EnosKernel.KeyedList

/-! The invariant of the task table over whole runs: one user task at most, kernel
tasks always ready and never dropped, the index on the running task, and every other
task's saved pointer its own. -/
namespace EnosKernel
namespace Scheduler

open TaskManager

/-- What identifies a task and never changes while it is listed. -/
def Task.signature (task : Task) : TaskPrivilege × ℕ × String := (task.privilege,task.id,task.name)

def kernelRows (tasks : List Task) : List (ℕ × String) :=
  (tasks.filter (fun task => task.privilege = .kernel)).map (fun task => (task.id,task.name))

theorem kernelRows_signature (tasks : List Task) :
    kernelRows tasks = ((tasks.map Task.signature).filter (fun g => g.1 = .kernel)).map Prod.snd := by
  induction tasks with
  | nil => rfl
  | cons task tasks ih =>
    by_cases hk : task.privilege = .kernel <;>
      simp_all [kernelRows,Task.signature]

theorem kernelRows_append (xs ys : List Task) : kernelRows (xs++ys) = kernelRows xs++kernelRows ys := by
  simp [kernelRows]

theorem kernelRows_cons_user {task : Task} (huser : task.privilege = .user) (tasks : List Task) :
    kernelRows (task::tasks) = kernelRows tasks := by simp [kernelRows,huser]

theorem kernelRows_eraseIdx {tasks : List Task} {idx : ℕ} {task : Task}
    (hget : tasks[idx]? = some task) (huser : task.privilege = .user) :
    kernelRows (tasks.eraseIdx idx) = kernelRows tasks := by
  obtain ⟨hlt,rfl⟩ := List.getElem?_eq_some_iff.mp hget
  have hsplit : tasks = tasks.take idx++tasks[idx]::tasks.drop (idx+1) := by simp
  have hdrop := kernelRows_cons_user huser (tasks.drop (idx+1))
  rw [List.eraseIdx_eq_take_drop_succ,kernelRows_append,← hdrop,← kernelRows_append,← hsplit]

theorem kernelRows_push (tasks : List Task) (id : ℕ) (name : String) (stack : UInt32) :
    kernelRows (tasks++[Task.new id name .kernel stack]) = kernelRows tasks++[(id,name)] := by
  rw [kernelRows_append]
  rfl

theorem signature_set {tasks : List Task} {idx : ℕ} {old new : Task} (hget : tasks[idx]? = some old)
    (hsig : new.signature = old.signature) :
    (tasks.set idx new).map Task.signature = tasks.map Task.signature := by
  obtain ⟨hlt,rfl⟩ := List.getElem?_eq_some_iff.mp hget
  have hlt' : idx < (tasks.map Task.signature).length := by simpa using hlt
  have hself : (tasks.map Task.signature)[idx] = new.signature := by simp [hsig]
  rw [List.map_set,← hself,List.set_getElem_self]

/-- The facts about the table that do not mention who runs. -/
structure Table (m : TaskManager) (registered : List (ℕ × String)) (lastEsp : ℕ → Option UInt32) :
    Prop where
  ids_nodup : (m.tasks.map Task.id).Nodup
  user_iff : ∀ task ∈ m.tasks, task.privilege = .user ↔ task.id = 1
  kernel_ready : ∀ task ∈ m.tasks, task.privilege = .kernel → task.state = .ready
  rows : kernelRows m.tasks = registered
  row_ids : registered.map Prod.fst = List.range' 2 registered.length
  next_id : m.nextTaskId = 2+registered.length
  nonempty : registered ≠ []
  fresh : ∀ id, m.nextTaskId ≤ id → lastEsp id = none

namespace Table

variable {m m' : TaskManager} {registered : List (ℕ × String)} {lastEsp lastEsp' : ℕ → Option UInt32}

theorem kernel_iff (h : Table m registered lastEsp) {task : Task} (hmem : task ∈ m.tasks) :
    task.privilege = .kernel ↔ task.id ≠ 1 := by
  have hu := h.user_iff task hmem
  cases hp : task.privilege <;> simp_all

theorem id_lt (h : Table m registered lastEsp) {task : Task} (hmem : task ∈ m.tasks) :
    task.id < m.nextTaskId := by
  by_cases hid : task.id = 1
  · have := h.next_id
    omega
  · have hrow : (task.id,task.name) ∈ registered := by
      rw [← h.rows]
      exact List.mem_map.mpr ⟨task,by simp [hmem,(h.kernel_iff hmem).mpr hid],rfl⟩
    have hrange : task.id ∈ List.range' 2 registered.length := by
      rw [← h.row_ids]
      exact List.mem_map.mpr ⟨_,hrow,rfl⟩
    have := List.mem_range'_1.mp hrange
    have := h.next_id
    omega

/-- A registered kernel task is always there, and ready. -/
theorem exists_ready (h : Table m registered lastEsp) : ∃ task ∈ m.tasks, task.state = .ready := by
  obtain ⟨row,hrow⟩ := List.exists_mem_of_ne_nil _ h.nonempty
  rw [← h.rows] at hrow
  obtain ⟨task,htask,-⟩ := List.mem_map.mp hrow
  have hmem := List.mem_filter.mp htask
  exact ⟨task,hmem.1,h.kernel_ready task hmem.1 (by simpa using hmem.2)⟩

theorem tasks_ne_nil (h : Table m registered lastEsp) : m.tasks ≠ [] := by
  obtain ⟨task,hmem,-⟩ := h.exists_ready
  exact List.ne_nil_of_mem hmem

theorem eq_of_id (h : Table m registered lastEsp) {i j : ℕ} {a b : Task}
    (ha : m.tasks[i]? = some a) (hb : m.tasks[j]? = some b) (hid : a.id = b.id) : i = j :=
  KeyedList.eq_of_getElem? h.ids_nodup ha hb hid

theorem mem_set (h : Table m registered lastEsp) {idx : ℕ} {current new task : Task}
    (hcur : m.tasks[idx]? = some current) (hmem : task ∈ m.tasks.set idx new) :
    (task ∈ m.tasks ∧ task.id ≠ current.id) ∨ task = new :=
  ((KeyedList.mem_set_iff h.ids_nodup hcur).mp hmem).symm

theorem mem_eraseIdx (h : Table m registered lastEsp) {idx : ℕ} {current task : Task}
    (hcur : m.tasks[idx]? = some current) :
    task ∈ m.tasks.eraseIdx idx ↔ task ∈ m.tasks ∧ task.id ≠ current.id :=
  KeyedList.mem_eraseIdx_iff h.ids_nodup hcur

theorem congr (h : Table m registered lastEsp)
    (hsig : m'.tasks.map Task.signature = m.tasks.map Task.signature)
    (hid : m'.nextTaskId = m.nextTaskId)
    (hready : ∀ task ∈ m'.tasks, task.privilege = .kernel → task.state = .ready)
    (hfresh : ∀ id, m.nextTaskId ≤ id → lastEsp' id = none) : Table m' registered lastEsp' where
  ids_nodup := by
    have hproj (tasks : List Task) :
        tasks.map Task.id = (tasks.map Task.signature).map (fun g => g.2.1) := by
      simp [Task.signature]
    rw [hproj,hsig,← hproj]
    exact h.ids_nodup
  user_iff := by
    intro task htask
    have hg : task.signature ∈ m.tasks.map Task.signature := by
      rw [← hsig]
      exact List.mem_map_of_mem htask
    obtain ⟨old,hold,he⟩ := List.mem_map.mp hg
    simp only [Task.signature,Prod.mk.injEq] at he
    rw [← he.1,← he.2.1]
    exact h.user_iff old hold
  kernel_ready := hready
  rows := by rw [kernelRows_signature,hsig,← kernelRows_signature,h.rows]
  row_ids := h.row_ids
  next_id := by rw [hid,h.next_id]
  nonempty := h.nonempty
  fresh := by rw [hid]; exact hfresh

theorem eraseUser (h : Table m registered lastEsp) {idx : ℕ} {task : Task}
    (hget : m.tasks[idx]? = some task) (huser : task.privilege = .user)
    (htasks : m'.tasks = m.tasks.eraseIdx idx) (hid : m'.nextTaskId = m.nextTaskId) :
    Table m' registered lastEsp where
  ids_nodup := by
    rw [htasks]
    exact h.ids_nodup.sublist ((List.eraseIdx_sublist _ _).map Task.id)
  user_iff := by
    rw [htasks]
    exact fun t ht => h.user_iff t (List.mem_of_mem_eraseIdx ht)
  kernel_ready := by
    rw [htasks]
    exact fun t ht => h.kernel_ready t (List.mem_of_mem_eraseIdx ht)
  rows := by rw [htasks,kernelRows_eraseIdx hget huser,h.rows]
  row_ids := h.row_ids
  next_id := by rw [hid,h.next_id]
  nonempty := h.nonempty
  fresh := by rw [hid]; exact h.fresh

theorem consMain (h : Table m registered lastEsp) (hkernel : ∀ task ∈ m.tasks, task.privilege = .kernel)
    (esp : UInt32) (htasks : m'.tasks = Task.placeholderMain esp :: m.tasks)
    (hid : m'.nextTaskId = m.nextTaskId) : Table m' registered lastEsp where
  ids_nodup := by
    rw [htasks,List.map_cons]
    refine List.nodup_cons.mpr ⟨?_,h.ids_nodup⟩
    intro hmem
    obtain ⟨task,htask,he⟩ := List.mem_map.mp hmem
    exact (h.kernel_iff htask).mp (hkernel task htask) (by simpa [Task.placeholderMain] using he)
  user_iff := by
    rw [htasks]
    intro task htask
    rcases List.mem_cons.mp htask with rfl | htask
    · simp [Task.placeholderMain]
    · exact h.user_iff task htask
  kernel_ready := by
    rw [htasks]
    intro task htask hk
    rcases List.mem_cons.mp htask with rfl | htask
    · rfl
    · exact h.kernel_ready task htask hk
  rows := by rw [htasks,kernelRows_cons_user rfl,h.rows]
  row_ids := h.row_ids
  next_id := by rw [hid,h.next_id]
  nonempty := h.nonempty
  fresh := by rw [hid]; exact h.fresh

theorem push (h : Table m registered lastEsp) (name : String) (stack : UInt32)
    (htasks : m'.tasks = m.tasks++[Task.new m.nextTaskId name .kernel stack])
    (hid : m'.nextTaskId = m.nextTaskId+1) :
    Table m' (registered++[(m.nextTaskId,name)]) lastEsp where
  ids_nodup := by
    rw [htasks,List.map_append]
    refine List.nodup_append.mpr ⟨h.ids_nodup,by simp,?_⟩
    intro a ha b hb hab
    obtain ⟨task,htask,rfl⟩ := List.mem_map.mp ha
    have hlt := h.id_lt htask
    simp only [Task.new,List.map_cons,List.map_nil,List.mem_singleton] at hb
    omega
  user_iff := by
    rw [htasks]
    intro task htask
    rcases List.mem_append.mp htask with htask | htask
    · exact h.user_iff task htask
    · have hone : m.nextTaskId ≠ 1 := by have := h.next_id; omega
      rw [List.mem_singleton.mp htask]
      simp [Task.new,hone]
  kernel_ready := by
    rw [htasks]
    intro task htask hk
    rcases List.mem_append.mp htask with htask | htask
    · exact h.kernel_ready task htask hk
    · rw [List.mem_singleton.mp htask]
      rfl
  rows := by rw [htasks,kernelRows_push,h.rows]
  row_ids := by
    rw [List.map_append,h.row_ids,List.length_append,List.length_singleton,List.range'_concat]
    simp [h.next_id]
  next_id := by simp [hid,h.next_id,Nat.add_assoc]
  nonempty := by simp
  fresh := fun id hle => h.fresh id (by omega)

end Table

@[simp] theorem wake_signature (tick : UInt64) (task : Task) :
    (wake tick task).signature = task.signature := by
  unfold wake
  split
  · split <;> rfl
  · rfl

@[simp] theorem wake_id (tick : UInt64) (task : Task) : (wake tick task).id = task.id :=
  congrArg (fun g => g.2.1) (wake_signature tick task)

@[simp] theorem wake_privilege (tick : UInt64) (task : Task) :
    (wake tick task).privilege = task.privilege :=
  congrArg Prod.fst (wake_signature tick task)

@[simp] theorem wake_stackPtr (tick : UInt64) (task : Task) :
    (wake tick task).stackPtr = task.stackPtr := by
  unfold wake
  split
  · split <;> rfl
  · rfl

theorem wake_ready {tick : UInt64} {task : Task} (h : task.state = .ready) :
    (wake tick task).state = .ready := by simp [wake,h]

theorem wake_terminated_iff (tick : UInt64) (task : Task) :
    (wake tick task).state = .terminated ↔ task.state = .terminated := by
  unfold wake
  split
  · split <;> simp_all
  · rfl

theorem Table.wakeSleepingTasks {m : TaskManager} {registered : List (ℕ × String)}
    {lastEsp : ℕ → Option UInt32} (h : Table m registered lastEsp) :
    Table m.wakeSleepingTasks registered lastEsp := by
  refine h.congr ?_ rfl ?_ h.fresh
  · simp [TaskManager.wakeSleepingTasks,Function.comp_def]
  · intro task htask hk
    obtain ⟨old,hold,rfl⟩ := List.mem_map.mp htask
    exact wake_ready (h.kernel_ready old hold (by simpa using hk))

structure Invariant (s : Traced) : Prop extends Table s.manager s.registered s.lastEsp where
  untracked : s.manager.mainTaskTracked = false →
    s.running = 1 ∧ ∀ task ∈ s.manager.tasks, task.privilege = .kernel
  current : s.manager.mainTaskTracked = true →
    ∃ task, s.manager.tasks[s.manager.currentTaskIdx]? = some task ∧ task.id = s.running
  terminated : ∀ task ∈ s.manager.tasks, task.state = .terminated → task.id = s.running
  saved : ∀ task ∈ s.manager.tasks, task.id ≠ s.running → s.ownPointer task.id = some task.stackPtr

namespace TaskManager

/-- The table a tick works on: counted, with the user thread tracked and sleepers woken. -/
def ticked (m : TaskManager) (esp : UInt32) : TaskManager :=
  (ensureMainTaskTracked { m with tickCount := m.tickCount+1 } esp).wakeSleepingTasks

/-- The table once the current task is switched away: dropped if terminated, saved otherwise. -/
def switchedAway (m : TaskManager) (esp : UInt32) : TaskManager :=
  match m.tasks[m.currentTaskIdx]? with
  | none => m
  | some current =>
    if current.state = .terminated then
      clamp { m with tasks := m.tasks.eraseIdx m.currentTaskIdx }
    else { m with
      tasks := m.tasks.set m.currentTaskIdx
        { current with stackPtr := esp, runTicks := current.runTicks+1 } }

/-- The table a fault selects from: the current task is dropped, sleepers are woken. -/
def faulted (m : TaskManager) (esp : UInt32) : TaskManager :=
  let m := m.ensureMainTaskTracked esp
  (clamp { m with tasks := m.tasks.eraseIdx m.currentTaskIdx }).wakeSleepingTasks

end TaskManager

/-- The table between the two halves of a switch: the old task is saved or gone, the
new one is not chosen yet, and every listed task could be resumed. -/
structure Parked (m : TaskManager) (registered : List (ℕ × String))
    (lastEsp created : ℕ → Option UInt32) : Prop extends Table m registered lastEsp where
  tracked : m.mainTaskTracked = true
  current_lt : m.currentTaskIdx < m.tasks.length
  live : ∀ task ∈ m.tasks, task.state ≠ .terminated
  saved : ∀ task ∈ m.tasks, (lastEsp task.id).or (created task.id) = some task.stackPtr

/-- A call that parks the old task, chooses the next ready one in cyclic order and
resumes it with its saved pointer. -/
structure Switches (m : TaskManager) (registered : List (ℕ × String))
    (lastEsp created : ℕ → Option UInt32) (call : Except Panic (UInt32 × TaskManager))
    (idx : ℕ) (task : Task) : Prop where
  parked : Parked m registered lastEsp created
  next : m.nextReadyAfter m.currentTaskIdx = some idx
  selected : m.tasks[idx]? = some task
  returns : call = .ok (task.stackPtr,{ m with currentTaskIdx := idx })
  invariant : Invariant ⟨{ m with currentTaskIdx := idx },task.id,lastEsp,created,registered⟩

theorem Parked.resume {m : TaskManager} {registered : List (ℕ × String)}
    {lastEsp created : ℕ → Option UInt32} (h : Parked m registered lastEsp created)
    (stalled : String) : ∃ idx task, Switches m registered lastEsp created
      (m.cleanupTerminatedNonCurrent.resumeNext stalled) idx task := by
  have hclean : m.cleanupTerminatedNonCurrent = m := by
    apply cleanupTerminatedNonCurrent_self h.current_lt
    intro idx task hget _
    simpa [TaskManager.live] using h.live task (List.mem_of_getElem? hget)
  obtain ⟨idx,task,hnext,hget,-,hres⟩ := resumeNext_ok stalled h.current_lt h.exists_ready
  refine ⟨idx,task,h,hnext,hget,by rw [hclean,hres],h.congr rfl rfl h.kernel_ready h.fresh,?_,?_,?_,?_⟩
  · intro hfalse
    have htrue := h.tracked
    simp_all
  · exact fun _ => ⟨task,hget,rfl⟩
  · exact fun t ht hdead => absurd hdead (h.live t ht)
  · exact fun t ht _ => h.saved t ht

theorem Parked.wakeSleepingTasks {m : TaskManager} {registered : List (ℕ × String)}
    {lastEsp created : ℕ → Option UInt32} (h : Parked m registered lastEsp created) :
    Parked m.wakeSleepingTasks registered lastEsp created := by
  refine ⟨h.toTable.wakeSleepingTasks,h.tracked,?_,?_,?_⟩
  · simpa [TaskManager.wakeSleepingTasks] using h.current_lt
  · intro task htask hdead
    obtain ⟨old,hold,rfl⟩ := List.mem_map.mp htask
    exact h.live old hold ((wake_terminated_iff _ _).mp hdead)
  · intro task htask
    obtain ⟨old,hold,rfl⟩ := List.mem_map.mp htask
    simpa using h.saved old hold

namespace Traced

def ensure (s : Traced) (esp : UInt32) : Traced :=
  { s with
    manager := s.manager.ensureMainTaskTracked esp
    created := if s.manager.mainTaskTracked then s.created
      else Function.update s.created 1 (some esp) }

theorem ensure_tracked (s : Traced) (esp : UInt32) :
    (s.ensure esp).manager.mainTaskTracked = true := by
  unfold ensure ensureMainTaskTracked
  split <;> simp_all

theorem noteMain_of_tracked (s : Traced) {after : TaskManager} (h : after.mainTaskTracked = true)
    (esp : UInt32) : s.noteMain after esp = (s.ensure esp).created := by
  unfold noteMain ensure
  cases ht : s.manager.mainTaskTracked <;> simp [h]

end Traced

namespace Invariant

variable {s t : Traced}

theorem running_lt (h : Invariant s) : s.running < s.manager.nextTaskId := by
  cases ht : s.manager.mainTaskTracked with
  | false =>
    have h1 := (h.untracked ht).1
    have h2 := h.next_id
    omega
  | true =>
    obtain ⟨task,hget,hid⟩ := h.current ht
    rw [← hid]
    exact h.id_lt (List.mem_of_getElem? hget)

theorem ensure (h : Invariant s) (esp : UInt32) : Invariant (s.ensure esp) := by
  cases ht : s.manager.mainTaskTracked with
  | true =>
    have he : s.ensure esp = s := by simp [Traced.ensure,ensureMainTaskTracked,ht]
    rwa [he]
  | false =>
    have hkernel := (h.untracked ht).2
    have hrun := (h.untracked ht).1
    have htasks : (s.ensure esp).manager.tasks = Task.placeholderMain esp :: s.manager.tasks := by
      simp [Traced.ensure,ensureMainTaskTracked,ht]
    have hnext : (s.ensure esp).manager.nextTaskId = s.manager.nextTaskId := by
      simp [Traced.ensure,ensureMainTaskTracked,ht]
    have hidx : (s.ensure esp).manager.currentTaskIdx = 0 := by
      simp [Traced.ensure,ensureMainTaskTracked,ht]
    refine ⟨h.toTable.consMain hkernel esp htasks hnext,?_,?_,?_,?_⟩
    · intro hfalse
      simp [Traced.ensure_tracked] at hfalse
    · intro _
      exact ⟨Task.placeholderMain esp,by simp [htasks,hidx],by simp [Traced.ensure,hrun,Task.placeholderMain]⟩
    · rw [htasks]
      intro task htask hdead
      rcases List.mem_cons.mp htask with rfl | htask
      · simp [Task.placeholderMain] at hdead
      · exact h.terminated task htask hdead
    · rw [htasks]
      intro task htask hne
      rcases List.mem_cons.mp htask with rfl | htask
      · exact absurd hrun.symm hne
      · have hid := (h.kernel_iff htask).mp (hkernel task htask)
        have hsaved := h.saved task htask (by rw [hrun]; exact hid)
        simpa [Traced.ownPointer,Traced.ensure,ht,hid] using hsaved

/-- Non-current tasks are never terminated, so the cleanup pass is idle on reached tables. -/
theorem cleanup_self (h : Invariant s) (ht : s.manager.mainTaskTracked = true) :
    s.manager.cleanupTerminatedNonCurrent = s.manager := by
  obtain ⟨current,hcur,hid⟩ := h.current ht
  apply cleanupTerminatedNonCurrent_self (List.getElem?_eq_some_iff.mp hcur).1
  intro idx task hget hne
  have hlive : task.state ≠ .terminated := by
    intro hdead
    have hrun := h.terminated task (List.mem_of_getElem? hget) hdead
    exact hne (h.eq_of_id hget hcur (hrun.trans hid.symm))
  simpa [TaskManager.live] using hlive

theorem wakeSleepingTasks (h : Invariant s) :
    Invariant { s with manager := s.manager.wakeSleepingTasks } := by
  refine ⟨h.toTable.wakeSleepingTasks,?_,?_,?_,?_⟩
  · intro ht
    refine ⟨(h.untracked ht).1,?_⟩
    intro task htask
    obtain ⟨old,hold,rfl⟩ := List.mem_map.mp htask
    simpa using (h.untracked ht).2 old hold
  · intro ht
    obtain ⟨task,hget,hid⟩ := h.current ht
    exact ⟨wake s.manager.tickCount task,by simp [TaskManager.wakeSleepingTasks,hget],by simpa using hid⟩
  · intro task htask hdead
    obtain ⟨old,hold,rfl⟩ := List.mem_map.mp htask
    simpa using h.terminated old hold ((wake_terminated_iff _ _).mp hdead)
  · intro task htask hne
    obtain ⟨old,hold,rfl⟩ := List.mem_map.mp htask
    simpa [Traced.ownPointer] using h.saved old hold (by simpa using hne)

theorem clamp_frame (m : TaskManager) : (clamp m).tasks = m.tasks ∧
    (clamp m).nextTaskId = m.nextTaskId ∧ (clamp m).mainTaskTracked = m.mainTaskTracked := by
  unfold clamp
  split <;> simp

theorem dropCurrent (h : Invariant s) {current : Task}
    (hcur : s.manager.tasks[s.manager.currentTaskIdx]? = some current) (hid : current.id = s.running)
    (huser : current.privilege = .user) (ht : s.manager.mainTaskTracked = true)
    (lastEsp : ℕ → Option UInt32) (hesp : ∀ id, id ≠ s.running → lastEsp id = s.lastEsp id) :
    s.manager.tasks.eraseIdx s.manager.currentTaskIdx ≠ [] ∧
    (∀ task ∈ s.manager.tasks.eraseIdx s.manager.currentTaskIdx, task.id ≠ s.running) ∧
    Parked (clamp { s.manager with tasks := s.manager.tasks.eraseIdx s.manager.currentTaskIdx })
      s.registered lastEsp s.created := by
  have hclamp := clamp_frame { s.manager with
    tasks := s.manager.tasks.eraseIdx s.manager.currentTaskIdx }
  have hother : ∀ task ∈ s.manager.tasks.eraseIdx s.manager.currentTaskIdx,
      task ∈ s.manager.tasks ∧ task.id ≠ s.running := by
    intro task htask
    rw [← hid]
    exact (h.mem_eraseIdx hcur).mp htask
  have htable : Table (clamp { s.manager with
      tasks := s.manager.tasks.eraseIdx s.manager.currentTaskIdx }) s.registered s.lastEsp :=
    h.toTable.eraseUser hcur huser hclamp.1 hclamp.2.1
  have hne : s.manager.tasks.eraseIdx s.manager.currentTaskIdx ≠ [] := by
    have hnil := htable.tasks_ne_nil
    rwa [hclamp.1] at hnil
  refine ⟨hne,fun task htask => (hother task htask).2,htable.congr rfl rfl htable.kernel_ready ?_,?_,?_,?_,?_⟩
  · rw [hclamp.2.1]
    intro id hle
    have hrun := h.running_lt
    rw [hesp id (by simp only at hle; omega)]
    exact h.fresh id hle
  · rw [hclamp.2.2]
    exact ht
  · have hpos := List.length_pos_iff.mpr hne
    unfold clamp
    split
    · exact hpos
    · omega
  · rw [hclamp.1]
    intro task htask hdead
    exact (hother task htask).2 (h.terminated task (hother task htask).1 hdead)
  · rw [hclamp.1]
    intro task htask
    rw [hesp task.id (hother task htask).2]
    exact h.saved task (hother task htask).1 (hother task htask).2

theorem saveOrRetire (h : Invariant s) (ht : s.manager.mainTaskTracked = true) (esp : UInt32) :
    s.manager.saveOrRetireCurrent esp = .ok (s.manager.switchedAway esp) ∧
    Parked (s.manager.switchedAway esp) s.registered
      (Function.update s.lastEsp s.running (some esp)) s.created := by
  obtain ⟨current,hcur,hid⟩ := h.current ht
  have hmem := List.mem_of_getElem? hcur
  have hlt := (List.getElem?_eq_some_iff.mp hcur).1
  simp only [switchedAway,hcur]
  by_cases hdead : current.state = .terminated
  · have huser : current.privilege = .user := by
      cases hp : current.privilege with
      | user => rfl
      | kernel => simp [h.kernel_ready current hmem hp] at hdead
    obtain ⟨hne,-,hparked⟩ := h.dropCurrent hcur hid huser ht
      (Function.update s.lastEsp s.running (some esp)) (fun id hid => by simp [hid])
    rw [if_pos hdead]
    refine ⟨?_,hparked⟩
    simp [saveOrRetireCurrent,indexTask_ok hcur,hdead,removeTask_ok hlt,hne,bind,Except.bind]
  · rw [if_neg hdead]
    refine ⟨by simp [saveOrRetireCurrent,indexTask_ok hcur,hdead,bind,Except.bind],
      h.toTable.congr (signature_set hcur rfl) rfl ?_ ?_,ht,by simpa using hlt,?_,?_⟩
    · intro task htask hk
      rcases h.mem_set hcur htask with ⟨hold,-⟩ | rfl
      · exact h.kernel_ready task hold hk
      · exact h.kernel_ready current hmem hk
    · intro id hle
      have hrun := h.running_lt
      rw [Function.update_of_ne (by omega)]
      exact h.fresh id hle
    · intro task htask
      rcases h.mem_set hcur htask with ⟨hold,hne⟩ | rfl
      · exact fun hd => hne ((h.terminated task hold hd).trans hid.symm)
      · exact hdead
    · intro task htask
      rcases h.mem_set hcur htask with ⟨hold,hne⟩ | rfl
      · rw [hid] at hne
        rw [Function.update_of_ne hne]
        exact h.saved task hold hne
      · simp [hid]

theorem counted (h : Invariant s) :
    Invariant { s with manager := { s.manager with tickCount := s.manager.tickCount+1 } } :=
  ⟨h.toTable.congr rfl rfl h.kernel_ready h.fresh,h.untracked,h.current,h.terminated,h.saved⟩

theorem ticked (h : Invariant s) (esp : UInt32) : Invariant { s with
    manager := s.manager.ticked esp
    created := (s.ensure esp).created } :=
  (h.counted.ensure esp).wakeSleepingTasks

theorem ticked_tracked (m : TaskManager) (esp : UInt32) : (m.ticked esp).mainTaskTracked = true := by
  unfold TaskManager.ticked TaskManager.wakeSleepingTasks ensureMainTaskTracked
  split <;> simp_all

/-- A timer tick from a reached state returns, and resumes the selected task with what
was saved for it. -/
theorem scheduleNext (h : Invariant s) (esp : UInt32) :
    ∃ idx task, Switches ((s.manager.ticked esp).switchedAway esp) s.registered
      (Function.update s.lastEsp s.running (some esp)) (s.ensure esp).created
      (s.manager.scheduleNext esp) idx task := by
  have hticked := h.ticked esp
  have htrack := ticked_tracked s.manager esp
  have hclean := hticked.cleanup_self htrack
  obtain ⟨current,hcur,-⟩ := hticked.current htrack
  have hclamp : clamp (s.manager.ticked esp) = s.manager.ticked esp := by
    have hlt := (List.getElem?_eq_some_iff.mp hcur).1
    exact if_neg (by simpa using hlt)
  obtain ⟨hsave,hparked⟩ := hticked.saveOrRetire htrack esp
  have hfirst : s.manager.tasks.isEmpty = false := by simpa using h.tasks_ne_nil
  have hsecond : (s.manager.ticked esp).tasks.isEmpty = false := by simpa using hticked.tasks_ne_nil
  have hcall : s.manager.scheduleNext esp =
      ((s.manager.ticked esp).switchedAway esp).cleanupTerminatedNonCurrent.resumeNext
        "Scheduler stalled: no runnable tasks" := by
    simp only [TaskManager.scheduleNext,hfirst]
    change (if (s.manager.ticked esp).cleanupTerminatedNonCurrent.tasks.isEmpty then _
      else (s.manager.ticked esp).cleanupTerminatedNonCurrent.clamp.saveOrRetireCurrent esp >>= _) = _
    rw [hclean,hsecond,hclamp,hsave]
    rfl
  rw [hcall]
  exact hparked.resume _

theorem current_user (h : Invariant s) (hruns : s.UserRuns) (esp : UInt32) {current : Task}
    (hcur : (s.ensure esp).manager.tasks[(s.ensure esp).manager.currentTaskIdx]? = some current) :
    current.privilege = .user := by
  have h₁ := h.ensure esp
  obtain ⟨task₁,hget₁,hid⟩ := h₁.current (s.ensure_tracked esp)
  obtain rfl : current = task₁ := Option.some.inj (hcur.symm.trans hget₁)
  cases ht : s.manager.mainTaskTracked with
  | false =>
    have hrun := (h.untracked ht).1
    exact (h₁.user_iff current (List.mem_of_getElem? hcur)).mpr (hid.trans hrun)
  | true =>
    have he : (s.ensure esp).manager = s.manager := by simp [Traced.ensure,ensureMainTaskTracked,ht]
    rw [he] at hcur
    rcases hruns with hun | ⟨task,hget,huser⟩
    · simp [ht] at hun
    · rw [hget] at hcur
      exact Option.some.inj hcur ▸ huser

theorem terminateFromFault (h : Invariant s) (hruns : s.UserRuns) (esp : UInt32) :
    (∀ task ∈ (s.manager.faulted esp).tasks, task.id ≠ s.running) ∧
    ∃ idx task, Switches (s.manager.faulted esp) s.registered s.lastEsp (s.ensure esp).created
      (s.manager.terminateCurrentUserTaskFromFault esp) idx task := by
  have h₁ := h.ensure esp
  have ht₁ := s.ensure_tracked esp
  obtain ⟨current,hcur,hid⟩ := h₁.current ht₁
  have hlt := (List.getElem?_eq_some_iff.mp hcur).1
  have huser := h.current_user hruns esp hcur
  obtain ⟨hne,hother,hparked⟩ := h₁.dropCurrent hcur hid huser ht₁ s.lastEsp (fun _ _ => rfl)
  have hm : s.manager.ensureMainTaskTracked esp = (s.ensure esp).manager := rfl
  constructor
  · intro task hmem
    obtain ⟨old,hold,rfl⟩ := List.mem_map.mp hmem
    rw [(clamp_frame _).1] at hold
    rw [wake_id]
    exact hother old hold
  · have hfirst : (s.ensure esp).manager.tasks.isEmpty = false := by simpa using h₁.tasks_ne_nil
    have hclamp : clamp (s.ensure esp).manager = (s.ensure esp).manager := if_neg (by simpa using hlt)
    have hcall : s.manager.terminateCurrentUserTaskFromFault esp =
        (s.manager.faulted esp).cleanupTerminatedNonCurrent.resumeNext
          "No runnable task after user fault termination" := by
      simp [TaskManager.terminateCurrentUserTaskFromFault,TaskManager.faulted,hm,hfirst,hclamp,
        indexTask_ok hcur,removeTask_ok hlt,huser,hne,bind,Except.bind]
    rw [hcall]
    exact hparked.wakeSleepingTasks.resume _

theorem setRunning (h : Invariant s) {current new : Task}
    (hcur : s.manager.tasks[s.manager.currentTaskIdx]? = some current) (hid : current.id = s.running)
    (huser : current.privilege = .user) (hsig : new.signature = current.signature) :
    Invariant { s with
      manager := { s.manager with tasks := s.manager.tasks.set s.manager.currentTaskIdx new } } := by
  have hnew : new.id = s.running := (congrArg (fun g => g.2.1) hsig).trans hid
  have hprivilege : new.privilege = .user := (congrArg Prod.fst hsig).trans huser
  refine ⟨h.toTable.congr (signature_set hcur hsig) rfl ?_ h.fresh,?_,?_,?_,?_⟩
  · intro task htask hk
    rcases h.mem_set hcur htask with ⟨hold,-⟩ | rfl
    · exact h.kernel_ready task hold hk
    · simp [hprivilege] at hk
  · intro ht
    have hk := (h.untracked ht).2 current (List.mem_of_getElem? hcur)
    simp [hk] at huser
  · intro _
    exact ⟨new,by simp [(List.getElem?_eq_some_iff.mp hcur).1],hnew⟩
  · intro task htask hdead
    rcases h.mem_set hcur htask with ⟨hold,-⟩ | rfl
    · exact h.terminated task hold hdead
    · exact hnew
  · intro task htask hne
    rcases h.mem_set hcur htask with ⟨hold,-⟩ | rfl
    · exact h.saved task hold hne
    · exact absurd hnew hne

theorem sleepCurrentTask_cases (h : Invariant s) (esp ticks : UInt32) : ∃ current,
    (s.ensure esp).manager.tasks[(s.ensure esp).manager.currentTaskIdx]? = some current ∧
    current.id = s.running ∧
    ((current.privilege ≠ .user ∨ current.state = .terminated) ∧
        s.manager.sleepCurrentTask esp ticks = (false,(s.ensure esp).manager) ∨
      (current.privilege = .user ∧ current.state ≠ .terminated) ∧
        s.manager.sleepCurrentTask esp ticks = (true,{ (s.ensure esp).manager with
          tasks := (s.ensure esp).manager.tasks.set (s.ensure esp).manager.currentTaskIdx
            { current with
              stackPtr := esp
              state := .sleeping ((s.ensure esp).manager.tickCount+max 1 ticks.toUInt64) } })) := by
  have h₁ := h.ensure esp
  obtain ⟨current,hcur,hid⟩ := h₁.current (s.ensure_tracked esp)
  obtain ⟨hlt,hget⟩ := List.getElem?_eq_some_iff.mp hcur
  have hfirst : s.manager.tasks.isEmpty = false := by simpa using h.tasks_ne_nil
  have hsecond : (s.ensure esp).manager.tasks.isEmpty = false := by simpa using h₁.tasks_ne_nil
  have hm : s.manager.ensureMainTaskTracked esp = (s.ensure esp).manager := rfl
  refine ⟨current,hcur,hid,?_⟩
  simp only [TaskManager.sleepCurrentTask,hm,hfirst,hsecond,Bool.false_eq_true,if_false,dif_pos hlt,hget]
  split_ifs with hpriv hdead
  · exact Or.inl ⟨Or.inl hpriv,rfl⟩
  · exact Or.inl ⟨Or.inr hdead,rfl⟩
  · exact Or.inr ⟨⟨not_not.mp hpriv,hdead⟩,rfl⟩

theorem sleepCurrentTask (h : Invariant s) (esp ticks : UInt32) :
    Invariant { s with
      manager := (s.manager.sleepCurrentTask esp ticks).2
      created := s.noteMain (s.manager.sleepCurrentTask esp ticks).2 esp } := by
  have h₁ := h.ensure esp
  have ht₁ := s.ensure_tracked esp
  obtain ⟨current,hcur,hid,⟨-,hcall⟩ | ⟨⟨huser,-⟩,hcall⟩⟩ := h.sleepCurrentTask_cases esp ticks
  · rw [hcall,s.noteMain_of_tracked ht₁]
    exact h₁
  · rw [hcall,Traced.noteMain_of_tracked]
    · exact h₁.setRunning hcur hid huser rfl
    · exact ht₁

theorem tracked_of_user (h : Invariant s) {task : Task} (hmem : task ∈ s.manager.tasks)
    (huser : task.privilege = .user) : s.manager.mainTaskTracked = true := by
  by_contra hf
  have hk := (h.untracked (by simpa using hf)).2 task hmem
  simp [hk] at huser

theorem dropWaiting (h : Invariant s) {idx : ℕ} {task : Task} (hne : idx ≠ s.manager.currentTaskIdx)
    (hget : s.manager.tasks[idx]? = some task) (huser : task.privilege = .user) :
    Invariant { s with
      manager := { s.manager with
        tasks := s.manager.tasks.eraseIdx idx
        currentTaskIdx := indexAfterRemoval idx s.manager.currentTaskIdx } } := by
  have ht := h.tracked_of_user (List.mem_of_getElem? hget) huser
  obtain ⟨current,hcur,hid⟩ := h.current ht
  refine ⟨h.toTable.eraseUser hget huser rfl rfl,?_,?_,?_,?_⟩
  · intro hf
    simp [ht] at hf
  · exact fun _ => ⟨current,(getElem?_indexAfterRemoval s.manager.tasks hne).trans hcur,hid⟩
  · exact fun t htask => h.terminated t (List.mem_of_mem_eraseIdx htask)
  · exact fun t htask => h.saved t (List.mem_of_mem_eraseIdx htask)

theorem kill_cases (h : Invariant s) (pid : ℕ) :
    (∃ reason, s.manager.killTaskByPid pid = .ok (.error reason,s.manager) ∧
      (pid = 0 ∨ ∀ idx task, s.manager.tasks.findIdx? (fun task => task.id == pid) = some idx →
        s.manager.tasks[idx]? = some task → task.privilege = .kernel)) ∨
    (∃ task, s.manager.tasks[s.manager.currentTaskIdx]? = some task ∧ task.id = pid ∧
      task.privilege = .user ∧ s.manager.killTaskByPid pid = .ok (.ok .markedForTermination,
        { s.manager with
          tasks := s.manager.tasks.set s.manager.currentTaskIdx { task with state := .terminated } })) ∨
    ∃ idx task, idx ≠ s.manager.currentTaskIdx ∧ s.manager.tasks[idx]? = some task ∧ task.id = pid ∧
      task.privilege = .user ∧ s.manager.killTaskByPid pid = .ok (.ok .killedNow,
        { s.manager with
          tasks := s.manager.tasks.eraseIdx idx
          currentTaskIdx := indexAfterRemoval idx s.manager.currentTaskIdx }) := by
  rcases killTaskByPid_cases s.manager pid with hrefused | hmarked | ⟨idx,task,hne,hget,hid,huser,hcall⟩
  · exact Or.inl hrefused
  · exact Or.inr (Or.inl hmarked)
  · obtain ⟨current,hcur,-⟩ := h.current (h.tracked_of_user (List.mem_of_getElem? hget) huser)
    have hcur' := (getElem?_indexAfterRemoval s.manager.tasks hne).trans hcur
    have hclamp : ∀ m : TaskManager, m.currentTaskIdx < m.tasks.length → clampUnlessEmpty m = m :=
      fun m hm => if_neg (by simp [hm])
    rw [hclamp _ (List.getElem?_eq_some_iff.mp hcur').1] at hcall
    exact Or.inr (Or.inr ⟨idx,task,hne,hget,hid,huser,hcall⟩)

theorem killTaskByPid (h : Invariant s) (pid : ℕ) :
    ∃ t, s.apply (.killTaskByPid pid) = .ok t ∧ Invariant t := by
  rcases h.kill_cases pid with ⟨reason,hcall,-⟩ | ⟨task,hget,-,huser,hcall⟩ |
      ⟨idx,task,hne,hget,-,huser,hcall⟩
  · exact ⟨_,by simp only [Traced.apply,hcall,bind,Except.bind],h⟩
  · refine ⟨_,by simp only [Traced.apply,hcall,bind,Except.bind]; rfl,?_⟩
    have ht := h.tracked_of_user (List.mem_of_getElem? hget) huser
    obtain ⟨current,hcur,hid⟩ := h.current ht
    have he : task = current := Option.some.inj (hget.symm.trans hcur)
    exact h.setRunning hget (he ▸ hid) huser rfl
  · refine ⟨_,by simp only [Traced.apply,hcall,bind,Except.bind]; rfl,?_⟩
    exact h.dropWaiting hne hget huser

theorem registerNamedTask (h : Invariant s) (name : String) (stack : UInt32)
    (hroom : s.registered.length+1 < 2^32-2) :
    ∃ t, s.apply (.registerNamedTask name stack) = .ok t := by
  have hnext := h.next_id
  have hadd : MachineArith.add 32 s.manager.nextTaskId 1 = .ok (s.manager.nextTaskId+1) :=
    MachineArith.add_ok (by omega)
  exact ⟨_,by simp only [Traced.apply,TaskManager.registerNamedTask,hadd,bind,Except.bind]; rfl⟩

theorem register_inv (h : Invariant s) {name : String} {stack : UInt32}
    (hcall : s.apply (.registerNamedTask name stack) = .ok t) : Invariant t := by
  cases hadd : MachineArith.add 32 s.manager.nextTaskId 1 with
  | error e => simp [Traced.apply,TaskManager.registerNamedTask,hadd,bind,Except.bind] at hcall
  | ok next =>
    obtain ⟨rfl,-⟩ := MachineArith.add_eq_ok.mp hadd
    simp only [Traced.apply,TaskManager.registerNamedTask,hadd,bind,Except.bind,Except.ok.injEq] at hcall
    subst hcall
    refine ⟨h.toTable.push name stack rfl rfl,?_,?_,?_,?_⟩
    · intro ht
      refine ⟨(h.untracked ht).1,?_⟩
      intro task htask
      rcases List.mem_append.mp htask with htask | htask
      · exact (h.untracked ht).2 task htask
      · rw [List.mem_singleton.mp htask]
        rfl
    · intro ht
      obtain ⟨task,hget,hid⟩ := h.current ht
      refine ⟨task,?_,hid⟩
      rw [List.getElem?_append_left (List.getElem?_eq_some_iff.mp hget).1]
      exact hget
    · intro task htask hdead
      rcases List.mem_append.mp htask with htask | htask
      · exact h.terminated task htask hdead
      · rw [List.mem_singleton.mp htask] at hdead
        simp [Task.new] at hdead
    · intro task htask hne
      rcases List.mem_append.mp htask with htask | htask
      · have hlt := h.id_lt htask
        have hsaved := h.saved task htask hne
        simpa [Traced.ownPointer,Function.update_of_ne hlt.ne] using hsaved
      · rw [List.mem_singleton.mp htask]
        simp [Traced.ownPointer,Task.new,h.fresh _ le_rfl]

theorem apply_scheduleNext {esp : UInt32} {idx : ℕ} {task : Task} {m : TaskManager}
    {lastEsp created : ℕ → Option UInt32}
    (hswitch : Switches m s.registered lastEsp created (s.manager.scheduleNext esp) idx task) :
    s.apply (.scheduleNext esp) = .ok { s with
      manager := { m with currentTaskIdx := idx }
      running := task.id
      lastEsp := Function.update s.lastEsp s.running (some esp)
      created := (s.ensure esp).created } := by
  have htrack : ({ m with currentTaskIdx := idx } : TaskManager).mainTaskTracked = true :=
    hswitch.parked.tracked
  simp only [Traced.apply,hswitch.returns,bind,Except.bind,s.noteMain_of_tracked htrack,
    Traced.selectedId,hswitch.selected,Option.elim_some]

theorem apply_terminateFromFault {esp : UInt32} {idx : ℕ} {task : Task} {m : TaskManager}
    {lastEsp created : ℕ → Option UInt32} (hswitch : Switches m s.registered lastEsp created
      (s.manager.terminateCurrentUserTaskFromFault esp) idx task) :
    s.apply (.terminateFromFault esp) = .ok { s with
      manager := { m with currentTaskIdx := idx }
      running := task.id
      created := (s.ensure esp).created } := by
  have htrack : ({ m with currentTaskIdx := idx } : TaskManager).mainTaskTracked = true :=
    hswitch.parked.tracked
  simp only [Traced.apply,hswitch.returns,bind,Except.bind,s.noteMain_of_tracked htrack,
    Traced.selectedId,hswitch.selected,Option.elim_some]

/-- Every allowed call returns a state that satisfies the invariant, a registration as
long as ids last. -/
theorem apply (h : Invariant s) {op : Op} (hallowed : s.Allowed op)
    (hroom : ∀ name stack, op = .registerNamedTask name stack → s.registered.length+1 < 2^32-2) :
    ∃ t, s.apply op = .ok t := by
  cases op with
  | registerNamedTask name stack => exact h.registerNamedTask name stack (hroom name stack rfl)
  | scheduleNext esp =>
    obtain ⟨idx,task,hswitch⟩ := h.scheduleNext esp
    exact ⟨_,by simp only [Traced.apply,hswitch.returns,bind,Except.bind]; rfl⟩
  | sleepCurrentTask esp ticks => exact ⟨_,rfl⟩
  | killTaskByPid pid => exact (h.killTaskByPid pid).imp fun _ => And.left
  | terminateFromFault esp =>
    obtain ⟨-,idx,task,hswitch⟩ := h.terminateFromFault hallowed esp
    exact ⟨_,by simp only [Traced.apply,hswitch.returns,bind,Except.bind]; rfl⟩

theorem step (h : Invariant s) {op : Op} (hstep : s.Step op t) : Invariant t := by
  obtain ⟨hallowed,happly⟩ := hstep
  cases op with
  | registerNamedTask name stack => exact h.register_inv happly
  | scheduleNext esp =>
    obtain ⟨idx,task,hswitch⟩ := h.scheduleNext esp
    rw [apply_scheduleNext hswitch] at happly
    exact Except.ok.inj happly ▸ hswitch.invariant
  | sleepCurrentTask esp ticks => exact Except.ok.inj happly ▸ h.sleepCurrentTask esp ticks
  | killTaskByPid pid =>
    obtain ⟨t',hcall,hinv⟩ := h.killTaskByPid pid
    exact Except.ok.inj (hcall.symm.trans happly) ▸ hinv
  | terminateFromFault esp =>
    obtain ⟨-,idx,task,hswitch⟩ := h.terminateFromFault hallowed esp
    rw [apply_terminateFromFault hswitch] at happly
    exact Except.ok.inj happly ▸ hswitch.invariant

theorem start {name : String} {stack : UInt32}
    (hcall : Traced.new.apply (.registerNamedTask name stack) = .ok s) : Invariant s := by
  have hs : s = { Traced.new with
      manager := { TaskManager.new with
        tasks := [Task.new 2 name .kernel stack]
        nextTaskId := 3 }
      created := Function.update (fun _ => none) 2 (some (Task.new 2 name .kernel stack).stackPtr)
      registered := [(2,name)] } := (Except.ok.inj hcall).symm
  subst hs
  refine ⟨⟨by simp,?_,?_,rfl,rfl,rfl,by simp,fun _ _ => rfl⟩,?_,?_,?_,?_⟩ <;>
    simp [Task.new,Traced.new,TaskManager.new,Traced.ownPointer]

end Invariant

theorem Traced.Reached.invariant {t : Traced} (h : t.Reached) : Invariant t := by
  obtain ⟨name,stack,s,hstart,hrun⟩ := h
  exact hrun.invariant (I := Invariant) (fun s op t hs hstep => hs.step hstep) (Invariant.start hstart)

theorem ensure_created_of_ne {s : Traced} (h : Invariant s) {id : ℕ} (hne : id ≠ s.running)
    (esp : UInt32) : (s.ensure esp).created id = s.created id := by
  cases ht : s.manager.mainTaskTracked with
  | true => simp [Traced.ensure,ht]
  | false =>
    have hrun := (h.untracked ht).1
    simp [Traced.ensure,ht,Function.update_of_ne (hrun ▸ hne)]

/-- Context integrity: the index designates the running task, and every switch resumes
the selected task with its own pointer: the `esp` of the last tick it was running at,
which is the present one if it is selected again, or the one it was created with. -/
theorem context_integrity {s : Traced} (h : s.Reached) :
    (s.manager.mainTaskTracked = true →
      ∃ task, s.manager.tasks[s.manager.currentTaskIdx]? = some task ∧ task.id = s.running) ∧
    (∀ esp, ∃ sp after task, s.manager.scheduleNext esp = .ok (sp,after) ∧
      after.tasks[after.currentTaskIdx]? = some task ∧
      (if task.id = s.running then some esp else s.ownPointer task.id) = some sp) ∧
    (∀ esp, s.UserRuns → ∃ sp after task,
      s.manager.terminateCurrentUserTaskFromFault esp = .ok (sp,after) ∧
      after.tasks[after.currentTaskIdx]? = some task ∧
      task.id ≠ s.running ∧ s.ownPointer task.id = some sp) := by
  have hinv := h.invariant
  refine ⟨hinv.current,?_,?_⟩
  · intro esp
    obtain ⟨idx,task,hswitch⟩ := hinv.scheduleNext esp
    have hown := hswitch.parked.saved task (List.mem_of_getElem? hswitch.selected)
    refine ⟨_,_,task,hswitch.returns,hswitch.selected,?_⟩
    split
    · rename_i hrun
      simpa [hrun] using hown
    · rename_i hrun
      simpa [Traced.ownPointer,hrun,ensure_created_of_ne hinv hrun] using hown
  · intro esp hruns
    obtain ⟨hother,idx,task,hswitch⟩ := hinv.terminateFromFault hruns esp
    have hmem := List.mem_of_getElem? hswitch.selected
    have hown := hswitch.parked.saved task hmem
    have hrun := hother task hmem
    refine ⟨_,_,task,hswitch.returns,hswitch.selected,hrun,?_⟩
    simpa [Traced.ownPointer,ensure_created_of_ne hinv hrun] using hown

/-- The table after boot registered the shell thread and one tick preempted the user thread. -/
def firstTick : Traced where
  manager := {
    tasks := [{ Task.placeholderMain 0x9000 with runTicks := 1 },
      Task.new 2 "background_thread" .kernel 0x180000]
    currentTaskIdx := 1
    nextTaskId := 3
    tickCount := 1
    mainTaskTracked := true }
  running := 2
  lastEsp := Function.update (fun _ => none) 1 (some 0x9000)
  created := Function.update (Function.update (fun _ => none) 2 (some 0x181fd4)) 1 (some 0x9000)
  registered := [(2,"background_thread")]

theorem firstTick_reached : firstTick.Reached := by
  refine ⟨"background_thread",0x180000,_,rfl,
    Relation.ReflTransGen.single ⟨.scheduleNext 0x9000,trivial,?_⟩⟩
  with_unfolding_all rfl

theorem context_integrity_firstTick : firstTick.Reached ∧
    ∃ task, firstTick.manager.tasks[firstTick.manager.currentTaskIdx]? = some task ∧ task.id = 2 :=
  ⟨firstTick_reached,(context_integrity firstTick_reached).1 rfl⟩

/-- No reached state can panic in an allowed call, and no kernel task is ever lost,
reordered or put to sleep. -/
theorem no_panic_and_kernel_tasks_kept {s : Traced} (h : s.Reached) :
    (∀ op, s.Allowed op →
      (∀ name stack, op = .registerNamedTask name stack → s.registered.length+1 < 2^32-2) →
      ∃ t, s.apply op = .ok t) ∧
    kernelRows s.manager.tasks = s.registered ∧
    ∀ task ∈ s.manager.tasks, task.privilege = .kernel → task.state = .ready :=
  ⟨fun _ => h.invariant.apply,h.invariant.rows,h.invariant.kernel_ready⟩

theorem no_panic_firstTick : firstTick.Reached ∧
    (∃ t, firstTick.apply (.scheduleNext 0xa000) = .ok t) ∧
    kernelRows firstTick.manager.tasks = [(2,"background_thread")] :=
  have h := no_panic_and_kernel_tasks_kept firstTick_reached
  ⟨firstTick_reached,h.1 (.scheduleNext 0xa000) trivial (by simp),h.2.1⟩

end Scheduler
end EnosKernel
