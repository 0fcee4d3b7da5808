import EnosKernel.SchedulerLifetimes
import EnosKernel.SchedulerRing

/-! Sleeping.  The row of a sleeper is kept by every call that spares it; the tick that
reaches the wake-up time turns it ready, not one tick earlier or later, and from then on
it stays ready. -/
namespace EnosKernel
namespace Scheduler

open TaskManager

/-- The call neither puts task `p` to sleep nor kills it nor drops it for a fault. -/
def Traced.Spares (p : ℕ) (s : Traced) : Op → Prop
  | .sleepCurrentTask esp ticks => (s.manager.sleepCurrentTask esp ticks).1 = true → s.running ≠ p
  | .killTaskByPid pid =>
    (∃ result after, s.manager.killTaskByPid pid = .ok (.ok result,after)) → pid ≠ p
  | .terminateFromFault _ => s.running ≠ p
  | _ => True

/-- A row that is not terminated survives a call that spares it; only the calls that
select look at its wake-up time. -/
theorem Consistent.keeps_row {s t : Traced} (h : Consistent s) {op : Op} (hcall : s.Call op t) {p : ℕ}
    (hspares : s.Spares p op) {state : TaskState} (hmem : (p,state) ∈ s.ring.rows)
    (hlive : state ≠ .terminated) :
    (p,if op.selects then state.wake t.manager.tickCount else state) ∈ t.ring.rows := by
  obtain ⟨k,hk⟩ := List.mem_iff_getElem?.mp hmem
  obtain ⟨current,hcur⟩ := h.current_row
  have htick := h.tickCount_call hcall
  have hplace (hne : s.running ≠ p) : s.ring.place ≠ k := by
    rintro rfl
    exact hne (Prod.mk.inj (Option.some.inj (hcur.symm.trans hk))).1
  cases op with
  | registerNamedTask name stack =>
    rw [Consistent.ring_register hcall]
    exact List.mem_iff_getElem?.mpr ⟨k,Ring.getElem?_push hk _⟩
  | scheduleNext esp =>
    simp only [Op.ticks,if_true] at htick
    obtain ⟨current,hcur,hadvance⟩ := h.ring_tick hcall
    have hwoken : (s.ring.map (wakeRow (s.manager.tickCount+1))).rows[k]? =
        some (p,state.wake (s.manager.tickCount+1)) := by simp [Ring.map,hk,wakeRow]
    rw [(Ring.advance_ready hadvance).1,htick]
    simp only [Op.selects,if_true]
    split_ifs with hdead
    · have hne : s.ring.place ≠ k := by
        rintro rfl
        exact hlive ((Prod.mk.inj (Option.some.inj (hk.symm.trans hcur))).2.trans hdead)
      exact List.mem_iff_getElem?.mpr ⟨_,(Ring.getElem?_eraseIdx_shift _ hne).trans hwoken⟩
    · exact List.mem_iff_getElem?.mpr ⟨k,hwoken⟩
  | sleepCurrentTask esp ticks =>
    rcases h.ring_sleep hcall with ⟨-,hring⟩ | ⟨hslept,-,-,-,hring⟩
    · rw [hring]
      exact hmem
    · rw [hring]
      exact List.mem_iff_getElem?.mpr ⟨k,(Ring.getElem?_set _ _ (hplace (hspares hslept))).trans hk⟩
  | killTaskByPid pid =>
    rcases h.ring_kill hcall with hring | ⟨hok,⟨hself,hring⟩ | ⟨idx,_,-,hidx,hring⟩⟩
    · rw [hring]
      exact hmem
    · rw [hring]
      exact List.mem_iff_getElem?.mpr
        ⟨k,(Ring.getElem?_set _ _ (hplace (hself ▸ hspares hok))).trans hk⟩
    · have hne : idx ≠ k := by
        rintro rfl
        exact hspares hok (Prod.mk.inj (Option.some.inj (hidx.symm.trans hk))).1
      rw [hring]
      exact List.mem_iff_getElem?.mpr ⟨_,(Ring.getElem?_eraseIdx_shift _ hne).trans hk⟩
  | terminateFromFault esp =>
    have htick' : t.manager.tickCount = s.manager.tickCount := htick
    rw [(Ring.advance_ready (h.ring_fault hcall)).1,htick']
    have hdropped : (s.ring.dropCurrent.map (wakeRow s.manager.tickCount)).rows[
        CyclicScan.shift s.ring.place k]? = some (p,state.wake s.manager.tickCount) := by
      simp only [Ring.map,Ring.dropCurrent,List.getElem?_map,
        Ring.getElem?_eraseIdx_shift _ (hplace hspares),hk]
      rfl
    exact List.mem_iff_getElem?.mpr ⟨_,hdropped⟩

structure Listed (p : ℕ) (state : TaskState) (s : Traced) : Prop where
  invariant : Invariant s
  tracked : s.manager.mainTaskTracked = true
  row : (p,state) ∈ s.ring.rows

namespace Listed

variable {p : ℕ} {state : TaskState} {s t : Traced} {op : Op}

theorem consistent (h : Listed p state s) : Consistent s := Or.inr h.invariant

theorem call (h : Listed p state s) (hlive : state ≠ .terminated) (hcall : s.Call op t)
    (hspares : s.Spares p op) :
    Listed p (if op.selects then state.wake t.manager.tickCount else state) t :=
  ⟨h.invariant.call hcall,(h.invariant.continues h.tracked hcall).2.2,
    h.consistent.keeps_row hcall hspares h.row hlive⟩

theorem exists_task (h : Listed p state s) :
    ∃ task ∈ s.manager.tasks, task.id = p ∧ task.state = state := by
  have hrow := h.row
  rw [Traced.ring_of_manager rfl h.tracked] at hrow
  obtain ⟨task,hmem,he⟩ := List.mem_map.mp hrow
  exact ⟨task,hmem,congrArg Prod.fst he,congrArg Prod.snd he⟩

theorem ready_call (h : Listed p .ready s) (hcall : s.Call op t) (hspares : s.Spares p op) :
    Listed p .ready t := by
  have ht := h.call (by simp) hcall hspares
  rwa [show (if op.selects then TaskState.ready.wake t.manager.tickCount else .ready) = .ready from
    ite_self _] at ht

end Listed

/-- Task `p` sleeps, and its time has not come. -/
structure Asleep (p : ℕ) (wakeAt : UInt64) (s : Traced) : Prop extends Listed p (.sleeping wakeAt) s where
  early : s.manager.tickCount.toNat < wakeAt.toNat

namespace Asleep

variable {p : ℕ} {wakeAt : UInt64} {s t : Traced} {op : Op}

theorem tick_le (h : Asleep p wakeAt s) (hcall : s.Call op t) :
    t.manager.tickCount.toNat ≤ wakeAt.toNat ∧
      (op.ticks = false → t.manager.tickCount.toNat < wakeAt.toNat) := by
  have htick := h.consistent.tickCount_call hcall
  have hearly := h.early
  have hbound := wakeAt.toNat_lt
  cases hop : op.ticks with
  | true =>
    rw [hop,if_pos rfl] at htick
    rw [htick,UInt64.toNat_add,Nat.mod_eq_of_lt (by simp; omega)]
    exact ⟨hearly,by simp⟩
  | false =>
    rw [hop] at htick
    rw [htick]
    exact ⟨hearly.le,fun _ => hearly⟩

theorem call (h : Asleep p wakeAt s) (hcall : s.Call op t) (hspares : s.Spares p op) :
    Asleep p wakeAt t ∨
      (op.ticks = true ∧ t.manager.tickCount.toNat = wakeAt.toNat ∧ Listed p .ready t) := by
  have ht := h.toListed.call (by simp) hcall hspares
  obtain ⟨hle,hidle⟩ := h.tick_le hcall
  by_cases hearly : t.manager.tickCount.toNat < wakeAt.toNat
  · left
    have hnot : ¬ t.manager.tickCount ≥ wakeAt := by
      rw [ge_iff_le,UInt64.le_iff_toNat_le]
      omega
    simp only [TaskState.wake,if_neg hnot,ite_self] at ht
    exact ⟨ht,hearly⟩
  · right
    have hop : op.ticks = true := by
      by_contra hop
      exact hearly (hidle (by simpa using hop))
    have hdue : t.manager.tickCount ≥ wakeAt := by
      rw [ge_iff_le,UInt64.le_iff_toNat_le]
      omega
    have hsel : op.selects = true := by
      cases op <;> simp_all [Op.ticks,Op.selects]
    simp only [TaskState.wake,if_pos hdue,if_pos hsel] at ht
    exact ⟨hop,by omega,ht⟩

theorem not_selected (ht : Asleep p wakeAt t) (hs : Consistent s) (hcall : s.Call op t)
    (hsel : op.selects = true) :
    ∃ task, t.manager.tasks[t.manager.currentTaskIdx]? = some task ∧ task.id ≠ p := by
  obtain ⟨task,hget,hid⟩ := ht.invariant.current ht.tracked
  refine ⟨task,hget,?_⟩
  rw [hid]
  rintro rfl
  obtain ⟨k,hk⟩ := List.mem_iff_getElem?.mp ht.row
  have hselected := hs.selected_ready hcall hsel
  rw [← ht.consistent.eq_of_id hk hselected,hk] at hselected
  simp at hselected

end Asleep

/-- While a path spares the sleeper, it sleeps on, or the wake-up tick was on the path. -/
theorem Asleep.along {p : ℕ} {wakeAt : UInt64} {s : Traced} (h : Asleep p wakeAt s)
    {path : List (Op × Traced)} (hpath : Runs.Along (fun u op v => u.Call op v ∧ u.Spares p op) s path) :
    Asleep p wakeAt (Runs.final s path) ∨
      (Listed p .ready (Runs.final s path) ∧
        ∃ e ∈ path, wakeAt.toNat ≤ e.2.manager.tickCount.toNat) := by
  induction path generalizing s with
  | nil => exact Or.inl h
  | cons e path ih =>
    obtain ⟨⟨hcall,hspares⟩,hrest⟩ := hpath
    rcases h.call hcall hspares with hasleep | ⟨-,hdue,hready⟩
    · rcases ih hasleep hrest with hend | ⟨hend,later,hlater,hle⟩
      · exact Or.inl hend
      · exact Or.inr ⟨hend,later,List.mem_cons_of_mem _ hlater,hle⟩
    · refine Or.inr ⟨?_,e,List.mem_cons_self,hdue.ge⟩
      exact hrest.reachable.invariant (I := Listed p .ready) (fun _ _ _ hu hc => hu.ready_call hc.1 hc.2)
        hready

theorem Listed.ready_ticked {p : ℕ} {s : Traced} {state : TaskState} (h : Listed p state s) {esp : UInt32}
    (hdue : state.wake (s.manager.tickCount+1) = .ready) :
    ∃ task ∈ (s.manager.ticked esp).tasks, task.id = p ∧ task.state = .ready := by
  have hrow : (p,TaskState.ready) ∈ (s.manager.ticked esp).ring.rows := by
    rw [s.ring_ticked esp]
    exact List.mem_map.mpr ⟨_,h.row,by rw [wakeRow,hdue]⟩
  obtain ⟨task,hmem,he⟩ := List.mem_map.mp hrow
  exact ⟨task,hmem,congrArg Prod.fst he,congrArg Prod.snd he⟩

theorem toNat_wakeAt {tick : UInt64} {ticks : UInt32} (h : tick.toNat+max 1 ticks.toNat < 2^64) :
    (tick+max 1 ticks.toUInt64).toNat = tick.toNat+max 1 ticks.toNat := by
  have hmax : (max 1 ticks.toUInt64).toNat = max 1 ticks.toNat := by
    rw [show max 1 ticks.toUInt64 = if 1 ≤ ticks.toUInt64 then ticks.toUInt64 else 1 from rfl,max_def]
    by_cases hle : 1 ≤ ticks.toNat
    · rw [if_pos hle,if_pos (by rw [UInt64.le_iff_toNat_le]; simpa using hle)]
      simp
    · rw [if_neg hle,if_neg (by rw [UInt64.le_iff_toNat_le]; simpa using hle)]
      simp
  rw [UInt64.toNat_add,hmax,Nat.mod_eq_of_lt h]

theorem Consistent.asleep_of_sleep {s t : Traced} (h : Consistent s) {esp ticks : UInt32}
    (hcall : s.Call (.sleepCurrentTask esp ticks) t)
    (hslept : (s.manager.sleepCurrentTask esp ticks).1 = true)
    (hbound : s.manager.tickCount.toNat+max 1 ticks.toNat < 2^64) :
    Asleep s.running (s.manager.tickCount+max 1 ticks.toUInt64) t := by
  have hring := h.ring_sleep hcall
  rw [hslept] at hring
  simp only [Bool.true_eq_false,false_and,false_or,true_and] at hring
  obtain ⟨state,hcur,-,hring⟩ := hring
  rcases h with hblank | hinv
  · simp [TaskManager.sleepCurrentTask,hblank.tasks] at hslept
  · have htrack : t.manager.mainTaskTracked = true := by
      rw [hcall.sleep.1]
      obtain ⟨current,-,-,⟨-,hc⟩ | ⟨-,hc⟩⟩ := hinv.sleepCurrentTask_cases esp ticks <;> rw [hc] <;>
        exact s.ensure_tracked esp
    refine ⟨⟨hinv.call hcall,htrack,?_⟩,?_⟩
    · rw [hring]
      exact List.mem_set (List.getElem?_eq_some_iff.mp hcur).1 _
    · have htick : t.manager.tickCount = s.manager.tickCount := Consistent.tickCount_call (Or.inr hinv) hcall
      rw [htick,toNat_wakeAt hbound]
      omega

theorem Consistent.sleep_refused {s : Traced} (h : Consistent s) {esp ticks : UInt32}
    (hrefused : (s.manager.sleepCurrentTask esp ticks).1 = false) :
    (s.manager.sleepCurrentTask esp ticks).2 = s.manager := by
  rcases h with hblank | hinv
  · simp [TaskManager.sleepCurrentTask,hblank.tasks]
  · obtain ⟨current,hcur,hid,⟨hwhy,hc⟩ | ⟨-,hc⟩⟩ := hinv.sleepCurrentTask_cases esp ticks
    · rw [hc]
      cases ht : s.manager.mainTaskTracked with
      | true => simp [Traced.ensure,ensureMainTaskTracked,ht]
      | false =>
        -- before it is tracked the initial thread is a ready user task, which cannot be refused
        simp [Traced.ensure,ensureMainTaskTracked,ht] at hcur
        simp [← hcur,Task.placeholderMain] at hwhy
    · simp [hc] at hrefused

/-- Sleep duration: a refused call changes nothing; after a successful one the task is not
selected as long as the tick counter stays below the wake-up time, it is ready right after
the wake-up pass of the tick that reaches it, and stays ready from then on. -/
theorem sleep_duration {s : Traced} (h : s.Ran) (esp ticks : UInt32) :
    ((s.manager.sleepCurrentTask esp ticks).1 = false →
      (s.manager.sleepCurrentTask esp ticks).2 = s.manager) ∧
    ((s.manager.sleepCurrentTask esp ticks).1 = true →
      ∀ wakeAt, wakeAt = s.manager.tickCount.toNat+max 1 ticks.toNat → wakeAt < 2^64 →
      ∀ t, s.Call (.sleepCurrentTask esp ticks) t →
      ∀ path, Runs.Along (fun u op v => u.Call op v ∧ u.Spares s.running op) t path →
      ∀ before op v after, path = before++(op,v)::after →
        (op.selects = true →
          (∀ e ∈ before++[(op,v)], e.2.manager.tickCount.toNat < wakeAt) →
          ∃ task, v.manager.tasks[v.manager.currentTaskIdx]? = some task ∧ task.id ≠ s.running) ∧
        (∀ esp', op = .scheduleNext esp' → v.manager.tickCount.toNat = wakeAt →
          (∃ task ∈ ((Runs.final t before).manager.ticked esp').tasks,
            task.id = s.running ∧ task.state = .ready) ∧
          ∀ e ∈ (op,v)::after, ∃ task ∈ e.2.manager.tasks,
            task.id = s.running ∧ task.state = .ready)) := by
  have hs := h.consistent
  refine ⟨hs.sleep_refused,?_⟩
  rintro hslept _ rfl hbound t hcall path hpath before op v after rfl
  have hasleep := hs.asleep_of_sleep hcall hslept hbound
  rw [← toNat_wakeAt hbound]
  obtain ⟨hbefore,⟨hstep,hspares⟩,hafter⟩ := Runs.along_append.mp hpath
  have hmiddle := hasleep.along hbefore
  constructor
  · intro hsel hearly
    rcases hmiddle with hu | ⟨-,e,he,hle⟩
    · rcases hu.call hstep hspares with hv | ⟨-,hdue,-⟩
      · exact hv.not_selected hu.consistent hstep hsel
      · have hlt := hearly (op,v) (by simp)
        exact absurd hdue hlt.ne
    · exact absurd (hearly e (List.mem_append_left _ he)) (not_lt.mpr hle)
  · rintro esp' rfl hdue
    have hready : Listed s.running .ready v := by
      rcases hmiddle with hu | ⟨hu,-⟩
      · rcases hu.call hstep hspares with hv | ⟨-,-,hv⟩
        · exact absurd hdue hv.early.ne
        · exact hv
      · exact hu.ready_call hstep hspares
    constructor
    · rcases hmiddle with hu | ⟨hu,-⟩
      · have htick : v.manager.tickCount = (Runs.final t before).manager.tickCount+1 :=
          hu.consistent.tickCount_call hstep
        refine hu.toListed.ready_ticked ?_
        rw [← htick]
        exact if_pos (by rw [ge_iff_le,UInt64.le_iff_toNat_le]; exact hdue.ge)
      · exact hu.ready_ticked rfl
    · intro e he
      rcases List.mem_cons.mp he with rfl | he
      · exact hready.exists_task
      · have hlater : Runs.Along (fun _ _ w => Listed s.running .ready w) v after :=
          hafter.of_invariant (I := Listed s.running .ready) (fun _ _ _ hu hc => hu.ready_call hc.1 hc.2)
            (fun _ _ _ hu hc => hu.ready_call hc.1 hc.2) hready
        exact (hlater.of_mem he).exists_task

/-- The user thread sleeps for one tick right after boot; the first tick finds it ready. -/
theorem sleep_duration_oneTick : ∃ s t v : Traced, s.Ran ∧
    (s.manager.sleepCurrentTask 0x9000 1).1 = true ∧ s.Call (.sleepCurrentTask 0x9000 1) t ∧
    t.Call (.scheduleNext 0x9000) v ∧ ∃ task ∈ v.manager.tasks, task.id = 1 ∧ task.state = .ready := by
  obtain ⟨s,hs⟩ : ∃ s, Traced.new.Call (.registerNamedTask "background_thread" 0x180000) s := ⟨_,rfl⟩
  have hran : s.Ran := .single ⟨_,hs⟩
  have hslept : (s.manager.sleepCurrentTask 0x9000 1).1 = true := by
    cases hs
    rfl
  have htick : s.manager.tickCount.toNat = 0 ∧ s.running = 1 := by
    cases hs
    exact ⟨rfl,rfl⟩
  obtain ⟨t,ht⟩ : ∃ t, s.Call (.sleepCurrentTask 0x9000 1) t := ⟨_,rfl⟩
  have hinv := (Blank.new.register hs).call ht
  obtain ⟨v,hv⟩ := hinv.apply (show t.Allowed (.scheduleNext 0x9000) from trivial) (by simp)
  have hcount : v.manager.tickCount.toNat = 1 := by
    rw [Consistent.tickCount_call (Or.inr hinv) hv]
    cases hs
    cases ht
    rfl
  have hduration := (sleep_duration hran 0x9000 1).2 hslept _ rfl (by rw [htick.1]; decide) t ht
    [(.scheduleNext 0x9000,v)] ⟨⟨hv,trivial⟩,trivial⟩ [] _ v [] rfl
  have hready := (hduration.2 0x9000 rfl (by rw [hcount,htick.1]; rfl)).2 _ List.mem_cons_self
  rw [htick.2] at hready
  exact ⟨s,t,v,hran,hslept,ht,hv,hready⟩

end Scheduler
end EnosKernel
