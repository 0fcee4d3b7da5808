import EnosKernel.SchedulerRing

/-! Bounded waiting.  A ready row is at most one turn of the ring away from being selected;
a tick that selects another row brings it nearer, a registration takes it at most one
step away, and no other call of an undisturbed run does. -/
namespace EnosKernel
namespace Scheduler

open TaskManager

namespace Traced

/-- Task `p` is neither put to sleep nor killed, and no running task is terminated. -/
def Undisturbed (p : ℕ) (s : Traced) : Op → Prop
  | .sleepCurrentTask esp ticks => (s.manager.sleepCurrentTask esp ticks).1 = true → s.running ≠ p
  | .killTaskByPid pid => (∃ result after, s.manager.killTaskByPid pid = .ok (.ok result,after)) →
    pid ≠ p ∧ pid ≠ s.running
  | .terminateFromFault _ => False
  | _ => True

/-- The number of tasks, the initial user thread included before it is tracked. -/
def taskCount (s : Traced) : ℕ :=
  s.manager.tasks.length + if s.manager.mainTaskTracked then 0 else 1

/-- Task `p` is ready; the initial user thread is, before it is tracked. -/
def Ready (p : ℕ) (s : Traced) : Prop :=
  (s.manager.mainTaskTracked = false ∧ p = 1) ∨ ∃ task ∈ s.manager.tasks, task.id = p ∧ task.state = .ready

theorem length_ring (s : Traced) : s.ring.rows.length = s.taskCount := by
  unfold ring TaskManager.ring ensureMainTaskTracked taskCount
  split_ifs <;> simp

theorem mem_ring_of_ready {p : ℕ} {s : Traced} (h : s.Ready p) : (p,.ready) ∈ s.ring.rows := by
  unfold ring TaskManager.ring ensureMainTaskTracked
  rcases h with ⟨hun,rfl⟩ | ⟨task,hmem,rfl,hready⟩
  · simp [hun,Task.row,Task.placeholderMain]
  · have hrow : (task.id,TaskState.ready) ∈ s.manager.tasks.map Task.row :=
      List.mem_map.mpr ⟨task,hmem,by rw [Task.row,hready]⟩
    split_ifs
    · exact hrow
    · exact List.mem_cons_of_mem _ hrow

end Traced

/-- Task `p` is ready and at most `d` ticks away from its turn.  When the running task is to
be dropped at the next tick, a whole turn is allowed for. -/
structure Waits (p d : ℕ) (s : Traced) : Prop where
  consistent : Consistent s
  near : ∃ k, s.ring.rows[k]? = some (p,.ready) ∧ s.ring.distance k ≤ d
  doomed : s.ring.rows[s.ring.place]? = some (s.running,.terminated) → s.ring.rows.length ≤ d

namespace Waits

variable {p d : ℕ} {s t : Traced}

theorem of_ready (h : Consistent s) (hready : s.Ready p) : Waits p s.taskCount s := by
  obtain ⟨k,hk⟩ := List.mem_iff_getElem?.mp (Traced.mem_ring_of_ready hready)
  exact ⟨h,⟨k,hk,s.length_ring ▸ s.ring.distance_le hk⟩,fun _ => s.length_ring.le⟩

theorem pos (h : Waits p d s) : 1 ≤ d := by
  obtain ⟨k,-,hd⟩ := h.near
  exact (Ring.distance_pos h.consistent.place_lt k).trans hd

theorem getElem?_wake {r : Ring (ℕ × TaskState)} {k : ℕ} (hk : r.rows[k]? = some (p,.ready))
    (tick : UInt64) : (r.map (wakeRow tick)).rows[k]? = some (p,.ready) := by
  simp [Ring.map,hk,wakeRow,TaskState.wake]

/-- A tick selects the waiting task or brings it nearer. -/
theorem tick (h : Waits p d s) {esp : UInt32} (hcall : s.Call (.scheduleNext esp) t) :
    t.running = p ∨ ∃ d' < d, Waits p d' t := by
  have ht := h.consistent.call hcall
  obtain ⟨k,hk,hd⟩ := h.near
  obtain ⟨state,hcur,hadvance⟩ := h.consistent.ring_tick hcall
  obtain ⟨hrows,row,hrow,hready⟩ := Ring.advance_ready hadvance
  have hdoomed (d' : ℕ) :
      t.ring.rows[t.ring.place]? = some (t.running,.terminated) → t.ring.rows.length ≤ d' := by
    intro hdead
    obtain rfl := Option.some.inj (hrow.symm.trans hdead)
    simp [rowReady,TaskState.isReady] at hready
  by_cases hdead : state = .terminated
  · rw [if_pos hdead] at hadvance hrows
    rw [hdead] at hcur
    have hne : s.ring.place ≠ k := by
      rintro rfl
      simpa using Option.some.inj (hcur.symm.trans hk)
    have hk' : t.ring.rows[CyclicScan.shift s.ring.place k]? = some (p,.ready) := by
      rw [hrows]
      exact (Ring.getElem?_eraseIdx_shift _ hne).trans (getElem?_wake hk _)
    have hlength : t.ring.rows.length = s.ring.rows.length-1 := by
      rw [hrows]
      simp [Ring.dropCurrent,Ring.map,List.length_eraseIdx,h.consistent.place_lt]
    have hle := t.ring.distance_le hk'
    have hpos := h.consistent.place_lt
    have hturn := h.doomed hcur
    exact Or.inr ⟨_,by omega,ht,⟨_,hk',le_rfl⟩,hdoomed _⟩
  · rw [if_neg hdead] at hadvance hrows
    have hk' := getElem?_wake hk (s.manager.tickCount+1)
    have hplace : (s.ring.map (wakeRow (s.manager.tickCount+1))).place <
        (s.ring.map (wakeRow (s.manager.tickCount+1))).rows.length := by
      simpa [Ring.map] using h.consistent.place_lt
    rcases Ring.advance_nearer hadvance hplace hk' rfl with hturn | hnearer
    · left
      obtain ⟨state',hrun⟩ := ht.current_row
      rw [hturn,hrows,hk'] at hrun
      exact (Prod.mk.inj (Option.some.inj hrun)).1.symm
    · rw [Ring.distance_map] at hnearer
      exact Or.inr ⟨_,by omega,ht,⟨k,hrows ▸ hk',le_rfl⟩,hdoomed _⟩

theorem register (h : Waits p d s) {name : String} {stack : UInt32}
    (hcall : s.Call (.registerNamedTask name stack) t) : Waits p (d+1) t := by
  have hring := Consistent.ring_register hcall
  obtain ⟨k,hk,hd⟩ := h.near
  refine ⟨h.consistent.call hcall,⟨k,hring ▸ Ring.getElem?_push hk _,?_⟩,?_⟩
  · rw [hring]
    exact (Ring.distance_push h.consistent.place_lt _ k).trans (by omega)
  · rw [hring,hcall.register.2]
    obtain ⟨state,hcur⟩ := h.consistent.current_row
    rw [show (s.ring.push (s.manager.nextTaskId,.ready)).place = s.ring.place from rfl,
      Ring.getElem?_push hcur,← hcur]
    intro hdead
    have hle := h.doomed hdead
    simp only [Ring.push,List.length_append,List.length_singleton]
    omega

theorem congr (h : Waits p d s) (ht : Consistent t) (hring : t.ring = s.ring)
    (hrun : t.running = s.running) : Waits p d t :=
  ⟨ht,by rw [hring]; exact h.near,by rw [hring,hrun]; exact h.doomed⟩

theorem sleep (h : Waits p d s) {esp ticks : UInt32} (hcall : s.Call (.sleepCurrentTask esp ticks) t)
    (hquiet : s.Undisturbed p (.sleepCurrentTask esp ticks)) : Waits p d t := by
  have ht := h.consistent.call hcall
  rcases h.consistent.ring_sleep hcall with ⟨-,hring⟩ | ⟨hslept,state,hcur,-,hring⟩
  · exact h.congr ht hring hcall.sleep.2
  · obtain ⟨k,hk,hd⟩ := h.near
    have hne : s.ring.place ≠ k := by
      rintro rfl
      exact hquiet hslept (Prod.mk.inj (Option.some.inj (hcur.symm.trans hk))).1
    refine ⟨ht,⟨k,?_,?_⟩,?_⟩
    · rw [hring,Ring.getElem?_set _ _ hne,hk]
    · rwa [hring,Ring.distance_set]
    · rw [hring]
      simp [Ring.set,h.consistent.place_lt]

theorem kill (h : Waits p d s) {pid : ℕ} (hcall : s.Call (.killTaskByPid pid) t)
    (hquiet : s.Undisturbed p (.killTaskByPid pid)) : Waits p d t := by
  have ht := h.consistent.call hcall
  have hrun := hcall.kill.2
  rcases h.consistent.ring_kill hcall with hring | ⟨hok,⟨hself,-⟩ | ⟨idx,state,hne,hidx,hring⟩⟩
  · exact h.congr ht hring hrun
  · exact absurd hself (hquiet hok).2
  · obtain ⟨k,hk,hd⟩ := h.near
    have hne' : idx ≠ k := by
      rintro rfl
      exact (hquiet hok).1 (Prod.mk.inj (Option.some.inj (hidx.symm.trans hk))).1
    have hlt := (List.getElem?_eq_some_iff.mp hidx).1
    refine ⟨ht,⟨_,by rw [hring]; exact (Ring.getElem?_eraseIdx_shift _ hne').trans hk,?_⟩,?_⟩
    · rw [hring]
      exact (Ring.distance_drop h.consistent.place_lt hk hlt hne hne').trans hd
    · rw [hring,hrun]
      intro hdead
      have hsame : (s.ring.drop idx).rows[(s.ring.drop idx).place]? = s.ring.rows[s.ring.place]? :=
        Ring.getElem?_eraseIdx_shift _ hne
      have hle := h.doomed (hsame ▸ hdead)
      simp only [Ring.drop,List.length_eraseIdx_of_lt hlt]
      omega

end Waits

/-- Task `p` is selected before the ticks of a run exceed its distance and the registrations. -/
theorem Waits.selected {p d : ℕ} {s : Traced} (h : Waits p d s) {path : List (Op × Traced)}
    (hpath : Runs.Along (fun u op v => u.Call op v ∧ u.Undisturbed p op) s path)
    (hticks : d+path.countP (fun e => e.1.registers) ≤ path.countP (fun e => e.1.ticks)) :
    ∃ before esp v after, path = before++(.scheduleNext esp,v)::after ∧ v.running = p ∧
      before.countP (fun e => e.1.ticks) < d+path.countP (fun e => e.1.registers) := by
  induction path generalizing s d with
  | nil =>
    have hpos := h.pos
    simp only [List.countP_nil] at hticks
    omega
  | cons e path ih =>
    obtain ⟨op,v⟩ := e
    obtain ⟨⟨hcall,hquiet⟩,hrest⟩ := hpath
    -- what a later selection gives for the whole path, once the first call is accounted for
    have hlater {d' : ℕ} (hv : Waits p d' v)
        (hcost : d'+path.countP (fun e => e.1.registers)+(if op.ticks then 1 else 0) ≤
          d+((op,v)::path).countP (fun e => e.1.registers)) :
        ∃ before esp u after, (op,v)::path = before++(.scheduleNext esp,u)::after ∧ u.running = p ∧
          before.countP (fun e => e.1.ticks) < d+((op,v)::path).countP (fun e => e.1.registers) := by
      simp only [List.countP_cons] at hticks hcost ⊢
      obtain ⟨before,esp,u,after,rfl,hrun,hlt⟩ := ih hv hrest (by omega)
      refine ⟨(op,v)::before,esp,u,after,rfl,hrun,?_⟩
      simp only [List.countP_cons]
      omega
    cases op with
    | scheduleNext esp =>
      rcases h.tick hcall with hrun | ⟨d',hd',hv⟩
      · have hpos := h.pos
        exact ⟨[],esp,v,path,rfl,hrun,by simp only [List.countP_nil]; omega⟩
      · exact hlater hv (by simp [Op.ticks,Op.registers]; omega)
    | registerNamedTask name stack =>
      exact hlater (h.register hcall) (by simp [Op.ticks,Op.registers]; omega)
    | sleepCurrentTask esp ticks =>
      exact hlater (h.sleep hcall hquiet) (by simp [Op.ticks,Op.registers])
    | killTaskByPid pid =>
      exact hlater (h.kill hcall hquiet) (by simp [Op.ticks,Op.registers])
    | terminateFromFault esp => exact hquiet.elim

/-- No starvation: in a continuation with `r` registrations that leaves task `p` undisturbed, a
ready task `p` is selected by one of the first `n+r` ticks. -/
theorem bounded_waiting {s : Traced} (h : s.Ran) {p : ℕ} (hready : s.Ready p)
    (path : List (Op × Traced))
    (hpath : Runs.Along (fun u op v => u.Call op v ∧ u.Undisturbed p op) s path)
    (hticks : s.taskCount+path.countP (fun e => e.1.registers) ≤ path.countP (fun e => e.1.ticks)) :
    ∃ before esp v after, path = before++(.scheduleNext esp,v)::after ∧ v.running = p ∧
      before.countP (fun e => e.1.ticks) < s.taskCount+path.countP (fun e => e.1.registers) :=
  (Waits.of_ready h.consistent hready).selected hpath hticks

/-- The user thread, preempted by the first tick, is selected by one of the next two. -/
theorem bounded_waiting_firstTick : firstTick.Ran ∧ firstTick.Ready 1 ∧
    ∃ u v, firstTick.Call (.scheduleNext 0xa000) u ∧ u.Call (.scheduleNext 0xb000) v ∧
      ∃ before esp w after, [(Op.scheduleNext 0xa000,u),(.scheduleNext 0xb000,v)] =
        before++(.scheduleNext esp,w)::after ∧ w.running = 1 := by
  have hinv := firstTick_reached.invariant
  have hready : firstTick.Ready 1 := Or.inr ⟨_,List.mem_cons_self,rfl,rfl⟩
  obtain ⟨u,hu⟩ := hinv.apply (show firstTick.Allowed (.scheduleNext 0xa000) from trivial) (by simp)
  obtain ⟨v,hv⟩ := (hinv.call hu).apply (show u.Allowed (.scheduleNext 0xb000) from trivial) (by simp)
  obtain ⟨before,esp,w,after,hpath,hrun,-⟩ := bounded_waiting firstTick_reached.ran hready
    [(.scheduleNext 0xa000,u),(.scheduleNext 0xb000,v)] ⟨⟨hu,trivial⟩,⟨hv,trivial⟩,trivial⟩
    (by simp [Op.ticks,Op.registers,Traced.taskCount,firstTick])
  exact ⟨firstTick_reached.ran,hready,u,v,hu,hv,before,esp,w,after,hpath,hrun⟩

end Scheduler
end EnosKernel
