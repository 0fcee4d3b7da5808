import EnosKernel.SchedulerRing
import EnosKernel.KeyedList

/-! Who pays for the ticks.  An account is a pid with its `run_ticks`; the initial thread
has one from the start.  A tick adds one to the account of the task that ran, if that
one is not terminated, and no other call changes an account it keeps. -/
namespace EnosKernel
namespace Scheduler

open TaskManager

def Task.account (task : Task) : ℕ × UInt64 := (task.id,task.runTicks)

def TaskManager.accounts (m : TaskManager) : List (ℕ × UInt64) := m.tasks.map Task.account

namespace Traced

/-- The accounts of a traced state; `esp` plays no part in them. -/
def accounts (s : Traced) : List (ℕ × UInt64) := (s.manager.ensureMainTaskTracked 0).accounts

theorem accounts_eq (s : Traced) (esp : UInt32) :
    s.accounts = (s.manager.ensureMainTaskTracked esp).accounts := by
  unfold accounts ensureMainTaskTracked
  split_ifs <;> rfl

theorem accounts_of_manager {s : Traced} {m : TaskManager} (hm : s.manager = m)
    (ht : m.mainTaskTracked = true) : s.accounts = m.accounts := by
  simp [accounts,ensureMainTaskTracked,hm,ht]

theorem account_mem {s : Traced} {task : Task} (hmem : task ∈ s.manager.tasks) :
    task.account ∈ s.accounts := by
  unfold accounts ensureMainTaskTracked TaskManager.accounts
  split_ifs
  · exact List.mem_map_of_mem hmem
  · exact List.mem_map_of_mem (List.mem_cons_of_mem _ hmem)

def RunsLive (p : ℕ) (s : Traced) : Prop :=
  s.running = p ∧ ∀ task ∈ s.manager.tasks, task.id = p → task.state ≠ .terminated

instance (p : ℕ) (s : Traced) : Decidable (s.RunsLive p) := inferInstanceAs (Decidable (_ ∧ _))

def TicksWhile (p : ℕ) (s : Traced) (op : Op) : Prop := op.ticks = true ∧ s.RunsLive p

instance (p : ℕ) (s : Traced) (op : Op) : Decidable (TicksWhile p s op) :=
  inferInstanceAs (Decidable (_ ∧ _))

/-- A tick that task `p` pays for: one made on the empty table goes to nobody's account. -/
def Charges (p : ℕ) (s : Traced) (op : Op) : Prop := TicksWhile p s op ∧ s.manager.tasks ≠ []

instance (p : ℕ) (s : Traced) (op : Op) : Decidable (Charges p s op) :=
  inferInstanceAs (Decidable (_ ∧ _))

end Traced

theorem Blank.accounts {s : Traced} (h : Blank s) : s.accounts = [(1,0)] := by
  simp [Traced.accounts,TaskManager.accounts,ensureMainTaskTracked,h.untracked,h.tasks,Task.account,
    Task.placeholderMain]

namespace TaskManager

variable {m : TaskManager}

@[simp] theorem wake_runTicks (tick : UInt64) (task : Task) :
    (wake tick task).runTicks = task.runTicks := by
  unfold wake
  split <;> [split_ifs; skip] <;> rfl

@[simp] theorem accounts_wakeSleepingTasks (m : TaskManager) :
    m.wakeSleepingTasks.accounts = m.accounts := by
  simp [accounts,wakeSleepingTasks,Task.account]

@[simp] theorem accounts_clamp (m : TaskManager) : m.clamp.accounts = m.accounts := by
  unfold clamp
  split_ifs <;> rfl

theorem getElem?_accounts {idx : ℕ} {task : Task} (h : m.tasks[idx]? = some task) :
    m.accounts[idx]? = some task.account := by simp [accounts,h]

theorem accounts_set_self {idx : ℕ} {current : Task} (h : m.tasks[idx]? = some current) (new : Task)
    (hsame : new.account = current.account) :
    ({ m with tasks := m.tasks.set idx new } : TaskManager).accounts = m.accounts := by
  obtain ⟨hlt,rfl⟩ := List.getElem?_eq_some_iff.mp h
  have hlt' : idx < (m.tasks.map Task.account).length := by simpa using hlt
  have hself : (m.tasks.map Task.account)[idx] = new.account := by simp [hsame]
  simp only [accounts,List.map_set]
  rw [← hself,List.set_getElem_self]

theorem accounts_switchedAway {current : Task} (h : m.tasks[m.currentTaskIdx]? = some current)
    (esp : UInt32) : (m.switchedAway esp).accounts =
      if current.state = .terminated then m.accounts.eraseIdx m.currentTaskIdx
      else m.accounts.set m.currentTaskIdx (current.id,current.runTicks+1) := by
  simp only [switchedAway,h]
  split_ifs with hdead
  · rw [accounts_clamp]
    simp [accounts,List.eraseIdx_map]
  · simp [accounts,List.map_set,Task.account]

end TaskManager

theorem Invariant.runsLive_iff {s : Traced} (h : Invariant s) {esp : UInt32} {current : Task}
    (hcur : (s.ensure esp).manager.tasks[(s.ensure esp).manager.currentTaskIdx]? = some current) :
    s.RunsLive s.running ↔ current.state ≠ .terminated := by
  have hmem := List.mem_of_getElem? hcur
  obtain ⟨task,hget,hid⟩ := (h.ensure esp).current (s.ensure_tracked esp)
  obtain rfl := Option.some.inj (hget.symm.trans hcur)
  constructor
  · intro hlive hdead
    -- the placeholder of the initial thread is ready, so the terminated task is a listed one
    have hlisted : task ∈ s.manager.tasks := by
      simp only [Traced.ensure,ensureMainTaskTracked] at hmem
      split_ifs at hmem with htrack
      · exact hmem
      · rcases List.mem_cons.mp hmem with rfl | hmem
        · cases hdead
        · exact hmem
    exact hlive.2 task hlisted hid hdead
  · intro hlive
    refine ⟨rfl,fun other hother he => ?_⟩
    have hensured : other ∈ (s.ensure esp).manager.tasks := by
      simp only [Traced.ensure,ensureMainTaskTracked]
      split_ifs
      · exact hother
      · exact List.mem_cons_of_mem _ hother
    rwa [KeyedList.eq_of_key (h.ensure esp).ids_nodup hensured hmem (he.trans hid.symm)]

namespace Consistent

variable {s t : Traced} {op : Op}

theorem accounts_nodup (h : Consistent s) : (s.accounts.map Prod.fst).Nodup := by
  rcases h with hblank | hinv
  · simp [hblank.accounts]
  · simpa [Traced.accounts,TaskManager.accounts,Task.account,Function.comp_def] using
      show ((s.manager.ensureMainTaskTracked 0).tasks.map Task.id).Nodup from (hinv.ensure 0).ids_nodup

theorem accounts_register {name : String} {stack : UInt32}
    (hcall : s.Call (.registerNamedTask name stack) t) :
    t.accounts = s.accounts++[(s.manager.nextTaskId,0)] := by
  rw [Traced.accounts,hcall.register.1,Traced.accounts]
  unfold ensureMainTaskTracked
  split_ifs <;> simp [TaskManager.accounts,Task.account,Task.new]

theorem accounts_sleep (h : Consistent s) {esp ticks : UInt32}
    (hcall : s.Call (.sleepCurrentTask esp ticks) t) : t.accounts = s.accounts := by
  rcases h with hblank | hinv
  · rw [hblank.accounts,(hblank.sleepCurrentTask hcall).accounts]
  · have htrack := s.ensure_tracked esp
    obtain ⟨hm,-⟩ := hcall.sleep
    rw [s.accounts_eq esp]
    obtain ⟨current,hcur,-,⟨-,hsleep⟩ | ⟨-,hsleep⟩⟩ := hinv.sleepCurrentTask_cases esp ticks
    · rw [hsleep] at hm
      exact Traced.accounts_of_manager hm htrack
    · rw [hsleep] at hm
      rw [Traced.accounts_of_manager hm htrack]
      exact accounts_set_self hcur _ rfl

theorem accounts_kill (h : Consistent s) {pid : ℕ} (hcall : s.Call (.killTaskByPid pid) t) :
    t.accounts ⊆ s.accounts := by
  rcases h with hblank | hinv
  · rw [hblank.accounts,(hblank.killTaskByPid hcall).accounts]
    exact List.Subset.refl _
  · rcases hinv.call_kill hcall with ⟨reason,-,hm⟩ | ⟨task,-,hget,-,huser,hm⟩ |
        ⟨idx,task,-,-,hget,-,huser,hm⟩
    · rw [Traced.accounts,hm]
      exact List.Subset.refl _
    · have htrack := hinv.tracked_of_user (List.mem_of_getElem? hget) huser
      rw [Traced.accounts_of_manager hm htrack,Traced.accounts_of_manager rfl htrack]
      have hsame := accounts_set_self hget { task with state := .terminated } rfl
      exact fun e he => hsame ▸ he
    · have htrack := hinv.tracked_of_user (List.mem_of_getElem? hget) huser
      rw [Traced.accounts_of_manager hm htrack,Traced.accounts_of_manager rfl htrack]
      exact List.map_subset _ List.eraseIdx_subset

theorem accounts_fault (h : Consistent s) {esp : UInt32} (hcall : s.Call (.terminateFromFault esp) t) :
    t.accounts ⊆ s.accounts := by
  rcases h with hblank | hinv
  · exact absurd hcall hblank.terminateFromFault
  · obtain ⟨-,idx,task,hswitch,hm,-⟩ := hinv.call_terminateFromFault hcall
    rw [Traced.accounts_of_manager hm hswitch.parked.tracked,s.accounts_eq esp]
    change (s.manager.faulted esp).accounts ⊆ _
    rw [faulted,accounts_wakeSleepingTasks,accounts_clamp]
    exact List.map_subset _ List.eraseIdx_subset

theorem accounts_scheduleNext (hinv : Invariant s) {esp : UInt32} (hcall : s.Call (.scheduleNext esp) t) :
    ∃ place ticks, s.accounts[place]? = some (s.running,ticks) ∧ t.accounts =
      if s.RunsLive s.running then s.accounts.set place (s.running,ticks+1) else s.accounts.eraseIdx place := by
  obtain ⟨current,hcur,hid,hticked⟩ := hinv.ticked_current esp
  obtain ⟨idx,task,hswitch,hm,-⟩ := hinv.call_scheduleNext hcall
  have hget : s.accounts[(s.ensure esp).manager.currentTaskIdx]? = some current.account := by
    rw [s.accounts_eq esp]
    exact getElem?_accounts hcur
  have hplace : (s.manager.ticked esp).accounts = s.accounts ∧
      (s.manager.ticked esp).currentTaskIdx = (s.ensure esp).manager.currentTaskIdx := by
    rw [s.accounts_eq esp,TaskManager.ticked,accounts_wakeSleepingTasks]
    unfold TaskManager.wakeSleepingTasks Traced.ensure ensureMainTaskTracked
    split_ifs <;> exact ⟨rfl,rfl⟩
  have haccount : current.account = (s.running,current.runTicks) := by rw [Task.account,hid]
  refine ⟨_,current.runTicks,haccount ▸ hget,?_⟩
  rw [Traced.accounts_of_manager hm hswitch.parked.tracked]
  change ((s.manager.ticked esp).switchedAway esp).accounts = _
  rw [accounts_switchedAway hticked,hplace.1,hplace.2]
  simp only [wake_terminated_iff,wake_id,wake_runTicks,hid,hinv.runsLive_iff hcur,ne_eq,ite_not]

/-- A tick drops the account of a running task that is terminated and charges the running
task otherwise. -/
theorem accounts_tick (h : Consistent s) {esp : UInt32} (hcall : s.Call (.scheduleNext esp) t)
    (e : ℕ × UInt64) : e ∈ t.accounts ↔ ∃ ticks, (e.1,ticks) ∈ s.accounts ∧
      (s.running = e.1 → s.RunsLive e.1) ∧
      e.2 = ticks+if Traced.Charges e.1 s (.scheduleNext esp) then 1 else 0 := by
  obtain ⟨p,ticks'⟩ := e
  have hnodup := accounts_nodup h
  rcases h with hblank | hinv
  · rw [(hblank.scheduleNext hcall).accounts,hblank.accounts]
    simp [Traced.Charges,Traced.RunsLive,hblank.tasks]
  · obtain ⟨place,before,hget,hafter⟩ := accounts_scheduleNext hinv hcall
    have hcharges : Traced.Charges p s (.scheduleNext esp) ↔ s.RunsLive p :=
      ⟨fun hc => hc.1.2,fun hr => ⟨⟨rfl,hr⟩,hinv.tasks_ne_nil⟩⟩
    have hother (hne : p ≠ s.running) : ¬ s.RunsLive p := fun hr => hne hr.1.symm
    simp only [hcharges]
    rw [hafter]
    by_cases hp : p = s.running
    · subst hp
      have hunique : ∀ ticks, (s.running,ticks) ∈ s.accounts ↔ ticks = before := by
        refine fun ticks => ⟨fun hmem => ?_,?_⟩
        · exact congrArg Prod.snd (KeyedList.eq_of_key hnodup hmem (List.mem_of_getElem? hget) rfl)
        · rintro rfl
          exact List.mem_of_getElem? hget
      by_cases hlive : s.RunsLive s.running
      · rw [if_pos hlive,KeyedList.mem_set_iff hnodup hget]
        simp [hunique,hlive]
      · rw [if_neg hlive,KeyedList.mem_eraseIdx_iff hnodup hget]
        simp [hlive]
    · have hkept : (p,ticks') ∈ (if s.RunsLive s.running then s.accounts.set place (s.running,before+1)
          else s.accounts.eraseIdx place) ↔ (p,ticks') ∈ s.accounts := by
        split_ifs
        · rw [KeyedList.mem_set_iff hnodup hget]
          simp [hp]
        · rw [KeyedList.mem_eraseIdx_iff hnodup hget]
          simp [hp]
      rw [hkept]
      simp [hother hp,Ne.symm hp]

theorem accounts_call (h : Consistent s) (hcall : s.Call op t) {e : ℕ × UInt64} (he : e ∈ t.accounts) :
    e = (s.manager.nextTaskId,0) ∨
    ∃ ticks, (e.1,ticks) ∈ s.accounts ∧ e.2 = ticks+if Traced.Charges e.1 s op then 1 else 0 := by
  have hkept (hidle : op.ticks = false) (hmem : e ∈ s.accounts) :
      ∃ ticks, (e.1,ticks) ∈ s.accounts ∧ e.2 = ticks+if Traced.Charges e.1 s op then 1 else 0 :=
    ⟨e.2,hmem,by simp [Traced.Charges,Traced.TicksWhile,hidle]⟩
  cases op with
  | registerNamedTask name stack =>
    rw [accounts_register hcall,List.mem_append,List.mem_singleton] at he
    exact he.symm.imp_right (hkept rfl)
  | scheduleNext esp =>
    obtain ⟨ticks,hmem,-,hsum⟩ := (h.accounts_tick hcall e).mp he
    exact Or.inr ⟨ticks,hmem,hsum⟩
  | sleepCurrentTask esp ticks => exact Or.inr (hkept rfl (h.accounts_sleep hcall ▸ he))
  | killTaskByPid pid => exact Or.inr (hkept rfl (h.accounts_kill hcall he))
  | terminateFromFault esp => exact Or.inr (hkept rfl (h.accounts_fault hcall he))

theorem next_id (h : Consistent s) : s.manager.nextTaskId = 2+s.registered.length :=
  h.elim (fun hblank => by simp [hblank.next_id,hblank.registered]) (fun hinv => hinv.next_id)

theorem running_lt (h : Consistent s) : s.running < s.manager.nextTaskId :=
  h.elim (fun hblank => by simp [hblank.next_id,hblank.running]) (fun hinv => hinv.running_lt)

end Consistent

theorem Traced.Call.registered_le {s t : Traced} {op : Op} (hcall : s.Call op t) :
    s.registered.length ≤ t.registered.length := by
  have happly := hcall
  cases op <;>
    simp only [Traced.Call,Traced.apply,MachineArith.bind_eq_ok,Except.ok.injEq] at happly
  case registerNamedTask =>
    obtain ⟨after,-,rfl⟩ := happly
    simp
  case sleepCurrentTask => rw [← happly]
  all_goals
    obtain ⟨after,-,rfl⟩ := happly
    exact le_rfl

/-- The books are right when `paid` says what each account was charged so far. -/
structure Books (s : Traced) (paid : ℕ → ℕ) : Prop where
  balance : ∀ e ∈ s.accounts, e.2 = UInt64.ofNat (paid e.1)
  unborn : ∀ p, s.manager.nextTaskId ≤ p → paid p = 0

namespace Books

variable {s t : Traced} {paid : ℕ → ℕ}

theorem new : Books .new fun _ => 0 where
  balance := by
    intro e he
    rw [Blank.new.accounts,List.mem_singleton] at he
    rw [he]
    rfl
  unborn := fun _ _ => rfl

theorem call (h : Books s paid) (hs : Consistent s) {op : Op} (hcall : s.Call op t) :
    Books t fun p => paid p+if Traced.Charges p s op then 1 else 0 := by
  have hunborn {p : ℕ} (hp : s.manager.nextTaskId ≤ p) :
      (paid p+if Traced.Charges p s op then 1 else 0) = 0 := by
    have hrun := hs.running_lt
    rw [h.unborn p hp,if_neg]
    exact fun hc => by
      have := hc.1.2.1
      omega
  constructor
  · intro e he
    rcases hs.accounts_call hcall he with rfl | ⟨ticks,hmem,hsum⟩
    · rw [hunborn le_rfl]
      rfl
    · rw [hsum,UInt64.ofNat_add,← h.balance _ hmem]
      split_ifs <;> rfl
  · intro p hp
    apply hunborn
    have hs' := hs.next_id
    have ht' := (hs.call hcall).next_id
    have := hcall.registered_le
    omega

theorem final (h : Books s paid) (hs : Consistent s) {path : List (Op × Traced)}
    (hpath : Runs.Along Traced.Call s path) :
    Books (Runs.final s path) fun p => paid p+Runs.count (Traced.Charges p) s path := by
  induction path generalizing s paid with
  | nil => exact h
  | cons e path ih =>
    have hrest := ih (h.call hs hpath.1) (hs.call hpath.1) hpath.2
    simpa only [Runs.final,Runs.count,Nat.add_assoc] using hrest

end Books

def tickCalls (s : Traced) (path : List (Op × Traced)) : ℕ := Runs.count (fun _ op => op.ticks = true) s path

theorem tickCount_final {s : Traced} (hs : Consistent s) {path : List (Op × Traced)}
    (hpath : Runs.Along Traced.Call s path) : (Runs.final s path).manager.tickCount =
      s.manager.tickCount+UInt64.ofNat (tickCalls s path) := by
  induction path generalizing s with
  | nil => simp [Runs.final,tickCalls,Runs.count]
  | cons e path ih =>
    rw [Runs.final,ih (hs.call hpath.1) hpath.2,hs.tickCount_call hpath.1]
    simp only [tickCalls,Runs.count,UInt64.ofNat_add]
    split_ifs
    · rw [UInt64.add_assoc]
      rfl
    · simp

theorem sum_charges_le {ids : List ℕ} (hnodup : ids.Nodup) (s : Traced) (path : List (Op × Traced)) :
    (ids.map fun p => Runs.count (Traced.Charges p) s path).sum ≤ tickCalls s path :=
  Runs.sum_count_le Traced.running (fun _ _ _ hc => hc.1.2.1) (fun _ _ _ hc => hc.1.1) hnodup s path

section FewTicks

variable {path : List (Op × Traced)} (hpath : Runs.Along Traced.Call .new path)
  (hfew : tickCalls .new path < 2^64)
include hpath hfew

theorem account_exact {e : ℕ × UInt64} (he : e ∈ (Runs.final .new path).accounts) :
    e.2.toNat = Runs.count (Traced.Charges e.1) .new path := by
  have hle := sum_charges_le (List.nodup_singleton e.1) .new path
  simp only [List.map_cons,List.map_nil,List.sum_singleton] at hle
  rw [(Books.new.final (Or.inl Blank.new) hpath).balance e he]
  simp only [Nat.zero_add,UInt64.toNat_ofNat']
  exact Nat.mod_eq_of_lt (hle.trans_lt hfew)

theorem tickCount_exact : (Runs.final .new path).manager.tickCount.toNat = tickCalls .new path := by
  rw [tickCount_final (Or.inl Blank.new) hpath]
  simp only [Traced.new,TaskManager.new,UInt64.zero_add,UInt64.toNat_ofNat']
  exact Nat.mod_eq_of_lt hfew

theorem account_le_tickCount {e : ℕ × UInt64} (he : e ∈ (Runs.final .new path).accounts) :
    e.2.toNat ≤ (Runs.final .new path).manager.tickCount.toNat := by
  have hle := sum_charges_le (List.nodup_singleton e.1) .new path
  rw [account_exact hpath hfew he,tickCount_exact hpath hfew]
  simpa using hle

end FewTicks

/-- The accounts are exact: every listed task was charged once for each tick that found it
running and not terminated with something listed, and together they were charged no more
than was ticked. -/
theorem run_ticks_exact {path : List (Op × Traced)} (hpath : Runs.Along Traced.Call .new path)
    (hfew : tickCalls .new path < 2^64) :
    (∀ task ∈ (Runs.final .new path).manager.tasks,
      task.runTicks.toNat = Runs.count (Traced.Charges task.id) .new path) ∧
    ((Runs.final .new path).manager.tasks.map fun task => task.runTicks.toNat).sum ≤
      (Runs.final .new path).manager.tickCount.toNat := by
  have hexact : ∀ task ∈ (Runs.final .new path).manager.tasks,
      task.runTicks.toNat = Runs.count (Traced.Charges task.id) .new path :=
    fun task hmem => account_exact hpath hfew (Traced.account_mem hmem)
  refine ⟨hexact,?_⟩
  have hids : ((Runs.final .new path).manager.tasks.map Task.id).Nodup := by
    rcases Traced.Ran.consistent hpath.reachable with hblank | hinv
    · simp [hblank.tasks]
    · exact hinv.ids_nodup
  rw [tickCount_exact hpath hfew,List.map_congr_left hexact]
  simpa [Function.comp_def] using sum_charges_le hids .new path

def earlyTick : List (Op × Traced) :=
  [(.scheduleNext 0x8000,{ Traced.new with
      manager := { TaskManager.new with tickCount := 1 }
      lastEsp := Function.update (fun _ => none) 1 (some 0x8000) }),
   (.registerNamedTask "background_thread" 0x180000,{ Traced.new with
      manager := { TaskManager.new with
        tasks := [Task.new 2 "background_thread" .kernel 0x180000], tickCount := 1, nextTaskId := 3 }
      lastEsp := Function.update (fun _ => none) 1 (some 0x8000)
      created := Function.update (fun _ => none) 2 (some 0x181fd4)
      registered := [(2,"background_thread")] }),
   (.scheduleNext 0x9000,{ firstTick with
      manager := { firstTick.manager with tickCount := 2 }
      lastEsp := Function.update (Function.update (fun _ => none) 1 (some 0x8000)) 1 (some 0x9000) })]

theorem earlyTick_along : Runs.Along Traced.Call .new earlyTick := by
  refine ⟨rfl,rfl,?_,trivial⟩
  with_unfolding_all rfl

theorem run_ticks_exact_earlyTick :
    (Runs.final .new earlyTick).manager.tasks.map (fun task => task.runTicks.toNat) = [1,0] ∧
    Runs.count (Traced.Charges 1) .new earlyTick = 1 :=
  have h := (run_ticks_exact earlyTick_along (by decide)).1
  ⟨rfl,(h _ (List.mem_cons_self ..)).symm⟩

/-- The initial thread ran through both ticks and was charged for one. -/
theorem early_tick_not_charged : Runs.Along Traced.Call .new earlyTick ∧ tickCalls .new earlyTick < 2^64 ∧
    ∃ task ∈ (Runs.final .new earlyTick).manager.tasks,
      task.runTicks.toNat = 1 ∧ Runs.count (Traced.TicksWhile task.id) .new earlyTick = 2 := by
  refine ⟨earlyTick_along,by decide,_,List.mem_cons_self ..,rfl,?_⟩
  decide

end Scheduler
end EnosKernel
