import EnosKernel.SchedulerCalls

/-! `kill` against `ps`: a kill succeeds exactly for the rows that the process list shows as
user tasks, and changes nothing besides the task it names. -/
namespace EnosKernel
namespace Scheduler

open TaskManager

/-- The listed user rows are the user tasks; the virtual idle row is a kernel one. -/
theorem user_row_iff {m : TaskManager} (ht : m.mainTaskTracked = true) (pid : ℕ) :
    (∃ row ∈ m.processSnapshot, row.id = pid ∧ row.privilege = "user") ↔
      ∃ task ∈ m.tasks, task.id = pid ∧ task.privilege = .user := by
  simp only [processSnapshot,ht,if_true]
  constructor
  · rintro ⟨row,hrow,hid,huser⟩
    rcases List.mem_cons.mp hrow with rfl | hrow
    · simp at huser
    · obtain ⟨idx,hlt,rfl⟩ := List.mem_mapIdx.mp hrow
      exact ⟨_,List.getElem_mem hlt,hid,by simpa [snapshotRow] using huser⟩
  · rintro ⟨task,hmem,hid,huser⟩
    obtain ⟨idx,hlt,rfl⟩ := List.mem_iff_getElem.mp hmem
    exact ⟨_,List.mem_cons_of_mem _ (List.mem_mapIdx.mpr ⟨idx,hlt,rfl⟩),hid,
      by simpa [snapshotRow] using huser⟩

namespace Invariant

variable {s : Traced}

theorem find_user (h : Invariant s) {task : Task} (hmem : task ∈ s.manager.tasks)
    (huser : task.privilege = .user) : task.id ≠ 0 ∧ ∃ idx,
      s.manager.tasks.findIdx? (fun other => other.id == task.id) = some idx ∧
      s.manager.tasks[idx]? = some task := by
  refine ⟨by simp [(h.user_iff task hmem).mp huser],?_⟩
  cases hfind : s.manager.tasks.findIdx? (fun other => other.id == task.id) with
  | none => simpa using List.findIdx?_eq_none_iff.mp hfind task hmem
  | some idx =>
    obtain ⟨hlt,hfound,-⟩ := List.findIdx?_eq_some_iff_getElem.mp hfind
    obtain ⟨place,hplace⟩ := List.mem_iff_getElem?.mp hmem
    have hget : s.manager.tasks[idx]? = some s.manager.tasks[idx] := by simp [hlt]
    have hsame : idx = place := h.eq_of_id hget hplace (by simpa using hfound)
    exact ⟨idx,rfl,hsame ▸ hplace⟩

theorem not_refused (h : Invariant s) {task : Task} (hmem : task ∈ s.manager.tasks)
    (huser : task.privilege = .user) :
    ¬ (task.id = 0 ∨ ∀ idx other,
      s.manager.tasks.findIdx? (fun other => other.id == task.id) = some idx →
        s.manager.tasks[idx]? = some other → other.privilege = .kernel) := by
  obtain ⟨hzero,idx,hfind,hget⟩ := h.find_user hmem huser
  rintro (hz | hkernel)
  · exact hzero hz
  · simp [hkernel idx task hfind hget] at huser

end Invariant

/-- A kill answers, and agrees with the process list; a refused kill changes nothing, an
immediate one takes exactly the named task out and keeps the designated one, and a
deferred one only marks the current task. -/
theorem kill_agrees_with_process_list {s : Traced} (h : s.Ran)
    (ht : s.manager.mainTaskTracked = true) (pid : ℕ) :
    ∃ answer after, s.manager.killTaskByPid pid = .ok (answer,after) ∧
      ((∃ result, answer = .ok result) ↔
        ∃ row ∈ s.manager.processSnapshot, row.id = pid ∧ row.privilege = "user") ∧
      (∀ reason, answer = .error reason → after = s.manager) ∧
      (answer = .ok .killedNow → ∃ idx task currentTaskIdx,
        s.manager.tasks[idx]? = some task ∧ task.id = pid ∧
        after = { s.manager with
          tasks := s.manager.tasks.eraseIdx idx
          currentTaskIdx := currentTaskIdx } ∧
        (∀ other ∈ after.tasks, other.id ≠ pid) ∧
        ∃ current, s.manager.tasks[s.manager.currentTaskIdx]? = some current ∧
          after.tasks[after.currentTaskIdx]? = some current) ∧
      (answer = .ok .markedForTermination → ∃ current,
        s.manager.tasks[s.manager.currentTaskIdx]? = some current ∧ current.id = pid ∧
        after = { s.manager with
          tasks := s.manager.tasks.set s.manager.currentTaskIdx
            { current with state := .terminated } }) := by
  rcases h.consistent with hblank | hinv
  · simp [hblank.untracked] at ht
  rw [user_row_iff ht]
  obtain ⟨current,hcur,-⟩ := hinv.current ht
  rcases hinv.kill_cases pid with ⟨reason,hcall,hwhy⟩ | ⟨task,hget,hid,huser,hcall⟩ |
      ⟨idx,task,hne,hget,hid,huser,hcall⟩
  · refine ⟨_,_,hcall,⟨by simp,?_⟩,fun _ _ => rfl,by simp,by simp⟩
    rintro ⟨task,hmem,rfl,huser⟩
    exact absurd hwhy (hinv.not_refused hmem huser)
  · have hlisted : ∃ task ∈ s.manager.tasks, task.id = pid ∧ task.privilege = .user :=
      ⟨task,List.mem_of_getElem? hget,hid,huser⟩
    exact ⟨_,_,hcall,⟨fun _ => hlisted,fun _ => ⟨_,rfl⟩⟩,by simp,by simp,fun _ => ⟨task,hget,hid,rfl⟩⟩
  · have hlisted : ∃ task ∈ s.manager.tasks, task.id = pid ∧ task.privilege = .user :=
      ⟨task,List.mem_of_getElem? hget,hid,huser⟩
    refine ⟨_,_,hcall,⟨fun _ => hlisted,fun _ => ⟨_,rfl⟩⟩,by simp,?_,by simp⟩
    intro _
    refine ⟨idx,task,_,hget,hid,rfl,?_,current,hcur,?_⟩
    · intro other hother he
      exact ((hinv.mem_eraseIdx hget).mp hother).2 (he.trans hid.symm)
    · exact (getElem?_indexAfterRemoval s.manager.tasks hne).trans hcur

/-- The user thread waits behind the shell thread: a kill of pid 1 succeeds at once. -/
theorem kill_agrees_firstTick : firstTick.Ran ∧ firstTick.manager.mainTaskTracked = true ∧
    ∃ answer after, firstTick.manager.killTaskByPid 1 = .ok (answer,after) ∧
      ∃ result, answer = .ok result := by
  obtain ⟨answer,after,hcall,hiff,-⟩ := kill_agrees_with_process_list firstTick_reached.ran rfl 1
  exact ⟨firstTick_reached.ran,rfl,answer,after,hcall,hiff.mpr (by decide)⟩

end Scheduler
end EnosKernel
