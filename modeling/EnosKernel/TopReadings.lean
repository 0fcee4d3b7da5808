import EnosKernel.ShellCommands
import EnosKernel.SchedulerAccounting

/-! What `top` shows when timer ticks fall between its two reads.  The total is taken from
the first read and the rows from the second, so a percentage compares ticks of different
moments. -/
namespace EnosKernel
namespace Scheduler

open TaskManager

theorem snapshot_runTicks (s : Traced) :
    s.manager.processSnapshot.map ProcessSnapshot.runTicks = 0::s.accounts.map Prod.snd := by
  simp only [processSnapshot,List.map_cons,Traced.accounts,ensureMainTaskTracked]
  split_ifs
  · congr 1
    apply List.ext_getElem?
    simp [TaskManager.accounts,Task.account,snapshotRow,Function.comp_def]
  · simp [TaskManager.accounts,Task.account,Task.placeholderMain,snapshotRow]

namespace Consistent

variable {s t : Traced}

theorem runsLive_of_tick (h : Consistent s) {esp : UInt32} (hcall : s.Call (.scheduleNext esp) t) :
    t.RunsLive t.running := by
  refine ⟨rfl,fun task hmem _ => ?_⟩
  rcases h with hblank | hinv
  · simp [(hblank.scheduleNext hcall).tasks] at hmem
  · obtain ⟨idx,next,hswitch,hm,-⟩ := hinv.call_scheduleNext hcall
    rw [hm] at hmem
    exact hswitch.parked.live task hmem

/-- The accounts after a number of ticks: a terminated task is gone with the first one, the
others have paid for the ticks that found them running. -/
theorem accounts_ticks (h : Consistent s) {path : List (Op × Traced)}
    (hpath : Runs.Along Traced.Call s path) (hticks : ∀ e ∈ path, e.1.ticks = true) (e : ℕ × UInt64) :
    e ∈ (Runs.final s path).accounts ↔ ∃ ticks, (e.1,ticks) ∈ s.accounts ∧
      (path ≠ [] → s.running = e.1 → s.RunsLive e.1) ∧
      e.2 = ticks+UInt64.ofNat (Runs.count (Traced.Charges e.1) s path) := by
  induction path generalizing s with
  | nil => simp [Runs.final,Runs.count]
  | cons first path ih =>
    obtain ⟨op,t⟩ := first
    obtain ⟨hcall,hrest⟩ := hpath
    cases op with
    | scheduleNext esp =>
      rw [Runs.final,ih (h.call hcall) hrest fun e he => hticks e (List.mem_cons_of_mem _ he)]
      have hlive := h.runsLive_of_tick hcall
      have hcast (charged : Prop) [Decidable charged] :
          UInt64.ofNat (if charged then 1 else 0) = if charged then 1 else 0 := by split_ifs <;> rfl
      simp only [Runs.count,UInt64.ofNat_add,hcast]
      constructor
      · rintro ⟨middle,hmid,-,hsum⟩
        obtain ⟨ticks,hmem,hrun,hpaid⟩ := (h.accounts_tick hcall (e.1,middle)).mp hmid
        refine ⟨ticks,hmem,fun _ => hrun,?_⟩
        rw [hsum,show middle = _ from hpaid,UInt64.add_assoc]
      · rintro ⟨ticks,hmem,hrun,hsum⟩
        refine ⟨ticks+if Traced.Charges e.1 s (.scheduleNext esp) then 1 else 0,?_,
          fun _ he => he ▸ hlive,by rw [hsum,UInt64.add_assoc]⟩
        exact (h.accounts_tick hcall (e.1,_)).mpr ⟨ticks,hmem,hrun (List.cons_ne_nil _ _),rfl⟩
    | _ => cases hticks _ (List.mem_cons_self ..)

end Consistent
end Scheduler

namespace Shell

open Scheduler

theorem cpuPercent_le_iff (runTicks totalTicks : ℕ) : cpuPercent runTicks totalTicks ≤ 100 ↔
    totalTicks = 0 ∨ MachineArith.saturatingMul 64 runTicks 100 < 101*totalTicks := by
  unfold cpuPercent
  split_ifs with hzero
  · simp [hzero]
  · rw [← Nat.lt_succ_iff,Nat.div_lt_iff_lt_mul (Nat.pos_of_ne_zero hzero)]
    simp [hzero]

/-- The percentages that `top` prints when it reads the total in `first` and the rows in
`second`. -/
def topPercentages (first second : TaskManager) : List ℕ :=
  second.processSnapshot.map fun process =>
    cpuPercent process.runTicks.toNat first.stats.totalTicks.toNat

theorem topPercentages_eq (s t : Traced) : topPercentages s.manager t.manager =
    0::t.accounts.map fun e => cpuPercent e.2.toNat s.manager.tickCount.toNat := by
  have hrows : topPercentages s.manager t.manager =
      (t.manager.processSnapshot.map TaskManager.ProcessSnapshot.runTicks).map fun ticks =>
        cpuPercent ticks.toNat s.manager.tickCount.toNat := by
    rw [List.map_map]
    rfl
  rw [hrows,snapshot_runTicks,List.map_cons,List.map_map]
  simp [Function.comp_def,cpuPercent,MachineArith.saturatingMul]

/-- With any number of ticks between the two reads, no percentage passes 100 exactly when no
task has by then been charged more than the first total allows for. -/
theorem top_percentages_iff {s : Traced} (h : s.Ran) {path : List (Op × Traced)}
    (hpath : Runs.Along Traced.Call s path) (hticks : ∀ e ∈ path, e.1.ticks = true) :
    (∀ percent ∈ topPercentages s.manager (Runs.final s path).manager, percent ≤ 100) ↔
    s.manager.tickCount.toNat = 0 ∨ ∀ e ∈ s.accounts,
      (path ≠ [] → s.running = e.1 → s.RunsLive e.1) →
      MachineArith.saturatingMul 64
        (e.2+UInt64.ofNat (Runs.count (Traced.Charges e.1) s path)).toNat 100 <
          101*s.manager.tickCount.toNat := by
  have hrow (e : ℕ × UInt64) := h.consistent.accounts_ticks hpath hticks e
  simp only [topPercentages_eq,List.forall_mem_cons,List.forall_mem_map,cpuPercent_le_iff,Nat.zero_le,
    true_and]
  by_cases hzero : s.manager.tickCount.toNat = 0
  · simp [hzero]
  · simp only [hzero,false_or]
    constructor
    · intro hall e he hlive
      exact hall (e.1,_) ((hrow (e.1,_)).mpr ⟨e.2,he,hlive,rfl⟩)
    · intro hall e he
      obtain ⟨ticks,hmem,hlive,hsum⟩ := (hrow e).mp he
      rw [hsum]
      exact hall (e.1,ticks) hmem hlive

/-- Between two ticks: the shell's thread reads the total, runs out its slice, and is resumed
after the user thread ran out one of its own. -/
def betweenReads : List (Op × Traced) :=
  [(.scheduleNext 0xa000,{ firstTick with
      manager := { firstTick.manager with
        tasks := [{ Task.placeholderMain 0x9000 with runTicks := 1 },
          { Task.new 2 "background_thread" .kernel 0x180000 with stackPtr := 0xa000, runTicks := 1 }]
        currentTaskIdx := 0
        tickCount := 2 }
      running := 1
      lastEsp := Function.update firstTick.lastEsp 2 (some 0xa000) }),
   (.scheduleNext 0xb000,{ firstTick with
      manager := { firstTick.manager with
        tasks := [{ Task.placeholderMain 0xb000 with runTicks := 2 },
          { Task.new 2 "background_thread" .kernel 0x180000 with stackPtr := 0xa000, runTicks := 1 }]
        currentTaskIdx := 1
        tickCount := 3 }
      running := 2
      lastEsp := Function.update (Function.update firstTick.lastEsp 2 (some 0xa000)) 1 (some 0xb000) })]

theorem betweenReads_along : Runs.Along Traced.Call firstTick betweenReads := by
  refine ⟨?_,?_,trivial⟩ <;> with_unfolding_all rfl

/-- The user thread is shown with 200 percent. -/
theorem top_shows_two_hundred : firstTick.Ran ∧ Runs.Along Traced.Call firstTick betweenReads ∧
    (∀ e ∈ betweenReads, e.1.ticks = true) ∧
    topPercentages firstTick.manager (Runs.final firstTick betweenReads).manager = [0,200,100] :=
  ⟨firstTick_reached.ran,betweenReads_along,by decide,by decide⟩

/-- One tick between the reads: the shell's thread has run out its slice. -/
theorem top_percentages_firstTick : firstTick.Ran ∧ Runs.Along Traced.Call firstTick (betweenReads.take 1) ∧
    topPercentages firstTick.manager (Runs.final firstTick (betweenReads.take 1)).manager = [0,100,100] ∧
    ∀ percent ∈ topPercentages firstTick.manager (Runs.final firstTick (betweenReads.take 1)).manager,
      percent ≤ 100 := by
  have hpath : Runs.Along Traced.Call firstTick (betweenReads.take 1) := ⟨betweenReads_along.1,trivial⟩
  exact ⟨firstTick_reached.ran,hpath,by decide,
    (top_percentages_iff firstTick_reached.ran hpath (by decide)).mpr (Or.inr (by decide))⟩

/-- Of one moment, and before the counters wrap, all percentages are at most 100. -/
theorem top_percentages_of_one_read {path : List (Op × Traced)}
    (hpath : Runs.Along Traced.Call .new path) (hfew : tickCalls .new path < 2^64) :
    ∀ percent ∈ topPercentages (Runs.final .new path).manager (Runs.final .new path).manager,
      percent ≤ 100 := by
  simp only [topPercentages_eq,List.forall_mem_cons,List.forall_mem_map,cpuPercent_le_iff,Nat.zero_le,
    true_and]
  intro e he
  have hle := account_le_tickCount hpath hfew he
  unfold MachineArith.saturatingMul
  omega

end Shell
end EnosKernel
