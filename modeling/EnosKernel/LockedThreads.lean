import EnosKernel.ContextRuns
import EnosKernel.KernelLockSafety
import EnosKernel.KernelTables

/-! The machine of threads and the spin locks of the kernel as one machine: a handler takes and drops
its locks one by one on top of the thread that it has interrupted, and what it does to the threads is
done when it returns. -/
namespace EnosKernel
namespace LockedThreads

open Contexts (Layout)
open KernelLocks (Lock Thread Event Guarded Obstructed)
open Ia32

/-- The selectors in the data segment registers, which no wrapper saves: one set for all threads. -/
structure DataSegments where
  ds : UInt16
  es : UInt16
  fs : UInt16
  gs : UInt16
  deriving DecidableEq, Repr

namespace DataSegments

/-- What `switch_to_user_mode` loads. -/
def user : DataSegments := ⟨0x23,0x23,0x23,0x23⟩

def Writable (selector : UInt16) : Prop :=
  ∀ tssBase, ∃ s ∈ segmentAt (Tables.gdt tssBase) selector, s.WritableData ∧ s.Present

/-- The code of the kernel goes through `ds` and `es` only. -/
def Usable (d : DataSegments) : Prop := Writable d.ds ∧ Writable d.es

/-- A program of ring 3 may have loaded each of the registers with a selector that it can load. -/
def LoadedTo (d e : DataSegments) : Prop :=
  let Loaded (old new : UInt16) : Prop := new = old ∨ ∀ tssBase, LoadsData (Tables.gdt tssBase) 3 new
  Loaded d.ds e.ds ∧ Loaded d.es e.es ∧ Loaded d.fs e.fs ∧ Loaded d.gs e.gs

end DataSegments

structure Machine where
  system : Contexts.System
  locks : LockMachine.State Lock Thread Event
  segments : DataSegments

/-- Boot registers one thread besides the initial one. -/
def threadOf (id : ℕ) : Thread := if id = 1 then .user else .background

def Enabled (s : Contexts.System) : Prop := s.cpu.eflags &&& interruptFlag ≠ 0

def eventOf : Event → Contexts.Event
  | .keyboard => .keyboard
  | .timer => .timer
  | .syscall _ _ => .syscall
  | .pageFault address code => .pageFault address code

/-- What can be raised: devices need the flag, and the rest is raised in ring 3, a system call by its
number and its buffer. -/
def Raised (s : Contexts.System) : Event → Prop
  | .keyboard => Enabled s
  | .timer => Enabled s
  | .syscall number printable => ring s.cpu.cs ≠ 0 ∧ number = s.cpu.regs .eax ∧
      (printable = true ↔ ∃ text, Syscalls.Holds s.cpu.memory (s.cpu.regs .ebx) (s.cpu.regs .ecx) text)
  | .pageFault _ code => ring s.cpu.cs ≠ 0 ∧ code &&& 4 ≠ 0

inductive Act
  | work
  | fetch (code : LockMachine.Code Lock)
  | exec
  | kill (pid : ℕ)
  | enter (e : Event)
  | handle
  | leave

/-- Threads go on while no handler runs, by instructions that leave the flag alone or by those on
locks and the flag; `kill_task_by_pid` changes the table under its lock.  Only ring 3 loads data
segment registers, and a handler that cannot use them faults, which is no step. -/
def Step (l : Layout) (s : Machine) (a : Act) (t : Machine) : Prop :=
  match a with
  | .work => s.locks.handler = none ∧ Contexts.Step l s.system .work t.system ∧
      (Enabled t.system ↔ Enabled s.system) ∧ t.locks = s.locks ∧
      if ring s.system.cpu.cs = 0 then t.segments = s.segments else s.segments.LoadedTo t.segments
  | .fetch code => LockMachine.Step KernelLocks.system s.locks (.fetch code) t.locks ∧
      t.system = s.system ∧ t.segments = s.segments
  | .exec => LockMachine.Step KernelLocks.system s.locks .exec t.locks ∧
      Contexts.Step l s.system .work t.system ∧
      (Enabled t.system ↔ (t.locks.threads t.locks.current).flag = true) ∧ t.segments = s.segments
  | .kill pid => s.locks.handler = none ∧ s.locks.owner .scheduler = some (.thread .background) ∧
      Contexts.Step l s.system (.kill pid) t.system ∧ (Enabled t.system ↔ Enabled s.system) ∧
      t.locks = s.locks ∧ t.segments = s.segments
  | .enter e => LockMachine.Step KernelLocks.system s.locks (.enter e) t.locks ∧ Raised s.system e ∧
      t.system = s.system ∧ t.segments = s.segments
  | .handle => LockMachine.Step KernelLocks.system s.locks .handle t.locks ∧ s.segments.Usable ∧
      t.system = s.system ∧ t.segments = s.segments
  | .leave => ∃ e c, s.locks.handler = some (e,c) ∧ s.segments.Usable ∧
      LockMachine.Step KernelLocks.system s.locks (.leave (threadOf t.system.kernel.running)) t.locks ∧
      Contexts.Step l s.system (eventOf e) t.system ∧ t.segments = s.segments

/-- Boot has registered the background thread, worked on with interrupts off and jumped to ring 3. -/
def Start (l : Layout) (s : Machine) : Prop :=
  s.locks = KernelLocks.start ∧ s.segments = .user ∧
  ∃ boot name entryPoint stack first last, Contexts.Boot l boot ∧
    Contexts.Step l boot (.registerNamedTask name entryPoint stack) first ∧
    Runs.Repeats (Contexts.Step l) .work first last ∧ Contexts.Step l last .switchToUserMode s.system

def Reached (l : Layout) (t : Machine) : Prop := ∃ s, Start l s ∧ Runs.Reachable (Step l) s t

theorem Step.leaving {l : Layout} {s : Machine} {t : Contexts.System} {e : Event} {c : LockMachine.Context Lock}
    (hh : s.locks.handler = some (e,c)) (hdone : c.code = []) (husable : s.segments.Usable)
    (hnext : threadOf t.kernel.running = s.locks.current ∨ KernelLocks.system.switches e)
    (hserved : Contexts.Step l s.system (eventOf e) t) :
    Step l s .leave ⟨t,{ s.locks with handler := none, current := threadOf t.kernel.running },s.segments⟩ :=
  ⟨e,c,hh,husable,.leave hh hdone hnext,hserved,rfl⟩

section Projections

variable {l : Layout} {s t : Machine} {a : Act}

theorem Step.locks (h : Step l s a t) :
    t.locks = s.locks ∨ ∃ b, LockMachine.Step KernelLocks.system s.locks b t.locks := by
  cases a with
  | work => exact .inl h.2.2.2.1
  | fetch code => exact .inr ⟨_,h.1⟩
  | exec => exact .inr ⟨_,h.1⟩
  | kill pid => exact .inl h.2.2.2.2.1
  | enter e => exact .inr ⟨_,h.1⟩
  | handle => exact .inr ⟨_,h.1⟩
  | leave =>
    obtain ⟨e,c,-,-,hlocks,-⟩ := h
    exact .inr ⟨_,hlocks⟩

theorem Step.system (h : Step l s a t) : t.system = s.system ∨ ∃ e, Contexts.Step l s.system e t.system := by
  cases a with
  | work => exact .inr ⟨_,h.2.1⟩
  | fetch code => exact .inl h.2.1
  | exec => exact .inr ⟨_,h.2.1⟩
  | kill pid => exact .inr ⟨_,h.2.2.1⟩
  | enter e => exact .inl h.2.2.1
  | handle => exact .inl h.2.2.1
  | leave =>
    obtain ⟨e,c,-,-,-,hsystem,-⟩ := h
    exact .inr ⟨_,hsystem⟩

theorem Step.enter_inv {e : Event} (h : Step l s (.enter e) t) : s.locks.handler = none ∧ Raised s.system e ∧
    t = { s with locks := { s.locks with handler := some (e,⟨KernelLocks.system.handler e,false,[]⟩) } } := by
  obtain ⟨system,locks,segments⟩ := t
  obtain ⟨hlocks,he,rfl,rfl⟩ := h
  cases hlocks with
  | enter hidle => exact ⟨hidle,he,rfl⟩

theorem Step.handle_inv (h : Step l s .handle t) : ∃ e c i rest owner, s.locks.handler = some (e,c) ∧
    c.code = i::rest ∧
    t = { s with locks := { s.locks with handler := some (e,c.next i rest), owner := owner } } := by
  obtain ⟨system,locks,segments⟩ := t
  obtain ⟨hlocks,-,rfl,rfl⟩ := h
  cases hlocks with
  | handle hh hcode => exact ⟨_,_,_,_,_,hh,hcode,rfl⟩

theorem Step.leave_inv (h : Step l s .leave t) : ∃ e c system, s.locks.handler = some (e,c) ∧ c.code = [] ∧
    Contexts.Step l s.system (eventOf e) system ∧
    t = ⟨system,{ s.locks with handler := none, current := threadOf system.kernel.running },s.segments⟩ := by
  obtain ⟨system,locks,segments⟩ := t
  obtain ⟨e,c,hh,-,hlocks,hserved,rfl⟩ := h
  change LockMachine.Step _ _ (.leave (threadOf system.kernel.running)) locks at hlocks
  cases hlocks with
  | leave hh' hdone =>
    obtain ⟨rfl,rfl⟩ := Prod.mk.inj (Option.some.inj (hh.symm.trans hh'))
    exact ⟨e,c,system,hh,hdone,hserved,rfl⟩

theorem Step.handling (h : Step l s a t) (hs : s.locks.handler ≠ none) (ht : t.locks.handler ≠ none) :
    t.system = s.system := by
  cases a with
  | work => exact absurd h.1 hs
  | fetch code => exact h.2.1
  | exec =>
    obtain ⟨system,locks,segments⟩ := t
    cases h.1 with
    | exec hidle => exact absurd hidle hs
  | kill pid => exact absurd h.1 hs
  | enter e => exact h.2.2.1
  | handle => exact h.2.2.1
  | leave =>
    obtain ⟨e,c,system,-,-,-,rfl⟩ := h.leave_inv
    exact absurd rfl ht

end Projections

def Serves (l : Layout) (s : Machine) (e : Event) (t : Machine) : Prop :=
  ∃ u v, Step l s (.enter e) u ∧ Runs.Repeats (Step l) .handle u v ∧ Step l v .leave t

/-- The two halves agree on the thread that runs and on the flag, and a handler runs for what was
raised. -/
structure Linked (l : Layout) (s : Machine) : Prop where
  system : Contexts.Reached l s.system
  locks : Runs.Reachable (LockMachine.Step KernelLocks.system) KernelLocks.start s.locks
  current : s.locks.current = threadOf s.system.kernel.running
  flag : Enabled s.system ↔ (s.locks.threads s.locks.current).flag = true
  raised : ∀ e c, s.locks.handler = some (e,c) → Raised s.system e

section Returns

variable {l : Layout} {s t : Contexts.System} {e : Event}

theorem resumes (h : Contexts.Reached l s) (hflag : Enabled s) (hstep : Contexts.Step l s (eventOf e) t) :
    Enabled t ∧ (t.kernel.running = s.kernel.running ∨ KernelLocks.system.switches e) := by
  cases e with
  | keyboard =>
    have hthreads := (h.good.keyboard hstep).2
    refine ⟨?_,.inl (congrArg Contexts.Threads.running hthreads)⟩
    exact Contexts.System.enabled_running.mp (hthreads ▸ Contexts.System.enabled_running.mpr hflag)
  | timer =>
    exact ⟨Contexts.System.enabled_running.mp (h.good.timer_enabled h.preemptible hstep _),.inr trivial⟩
  | syscall number printable =>
    obtain ⟨-,esp,hthreads,-⟩ := h.good.syscall hstep
    refine ⟨?_,.inl (congrArg Contexts.Threads.running hthreads)⟩
    apply (Contexts.System.enabled_running (l := l)).mp
    rw [hthreads]
    intro x hx
    rw [← Option.some.inj (Contexts.Threads.set_context_self.symm.trans hx)]
    exact hflag
  | pageFault address code =>
    exact ⟨Contexts.System.enabled_running.mp (h.good.pageFault_enabled h.preemptible hstep _),.inr trivial⟩

theorem exists_step (h : Contexts.Reached l s) (he : Raised s e) : ∃ t, Contexts.Step l s (eventOf e) t := by
  cases e with
  | keyboard => exact Contexts.Good.keyboard_returns he
  | timer => exact h.good.timer_returns he
  | syscall number printable => exact (h.good.syscall_returns he.1).imp fun _ => And.left
  | pageFault address code => exact h.good.pageFault_returns he.1 address he.2

end Returns

namespace Linked

variable {l : Layout} {s t : Machine} {a : Act} {e : Event}

theorem invariant (h : Linked l s) : LockMachine.Invariant Guarded s.locks :=
  LockMachine.Invariant.reachable KernelLocks.system_wellFormed h.locks

theorem user (h : Linked l s) (hring : ring s.system.cpu.cs ≠ 0) :
    s.locks.current = .user ∧ Enabled s.system := by
  have hcurrent : s.locks.current = .user := by rw [h.current,(h.system.good.user_runs hring).1]; rfl
  exact ⟨hcurrent,h.flag.mpr (by rw [hcurrent,KernelLocks.user_idle h.locks])⟩

theorem enabled (h : Linked l s) (he : Raised s.system e) : Enabled s.system := by
  cases e with
  | keyboard => exact he
  | timer => exact he
  | syscall number printable => exact (h.user he.1).2
  | pageFault address code => exact (h.user he.1).2

theorem enter (h : Linked l s) (hidle : s.locks.handler = none) (he : Raised s.system e) :
    ∃ t, Step l s (.enter e) t := by
  have hsource : KernelLocks.system.source e s.locks.current := by
    cases e with
    | keyboard => trivial
    | timer => trivial
    | syscall number printable => exact (h.user he.1).1
    | pageFault address code => exact (h.user he.1).1
  exact ⟨{ s with locks := _ },.enter hidle (h.flag.mp (h.enabled he)) hsource,he,rfl,rfl⟩

theorem step (h : Linked l s) (hstep : Step l s a t) : Linked l t := by
  have hsystem : Contexts.Reached l t.system := by
    rcases hstep.system with hsame | ⟨e,he⟩
    · rw [hsame]
      exact h.system
    · exact h.system.step he
  have hlocks : Runs.Reachable (LockMachine.Step KernelLocks.system) KernelLocks.start t.locks := by
    rcases hstep.locks with hsame | hnext
    · rw [hsame]
      exact h.locks
    · exact h.locks.tail hnext
  obtain ⟨system,locks,segments⟩ := t
  cases a with
  | work =>
    obtain ⟨hidle,hwork,hflag,rfl,-⟩ := hstep
    refine ⟨hsystem,hlocks,by rw [hwork.1,h.current],hflag.trans h.flag,fun e c hh => ?_⟩
    simp [hidle] at hh
  | fetch code =>
    obtain ⟨hstep,rfl,rfl⟩ := hstep
    cases hstep with
    | fetch hidle =>
      refine ⟨hsystem,hlocks,h.current,h.flag.trans (by simp),fun e c hh => ?_⟩
      simp [hidle] at hh
  | exec =>
    obtain ⟨hstep,hwork,hflag,rfl⟩ := hstep
    cases hstep with
    | exec hidle =>
      refine ⟨hsystem,hlocks,by rw [hwork.1,h.current],hflag,fun e c hh => ?_⟩
      simp [hidle] at hh
  | kill pid =>
    obtain ⟨hidle,-,hkill,hflag,rfl,rfl⟩ := hstep
    have hrun : system.kernel.running = s.system.kernel.running := hkill.2.2.2.1.kill.2
    refine ⟨hsystem,hlocks,by rw [hrun,h.current],hflag.trans h.flag,fun e c hh => ?_⟩
    simp [hidle] at hh
  | enter e =>
    obtain ⟨-,he,heq⟩ := hstep.enter_inv
    obtain ⟨rfl,rfl,rfl⟩ := Machine.mk.inj heq
    refine ⟨hsystem,hlocks,h.current,h.flag,?_⟩
    rintro e' c ⟨⟩
    exact he
  | handle =>
    obtain ⟨e,c,i,rest,owner,hh,-,heq⟩ := hstep.handle_inv
    obtain ⟨rfl,rfl,rfl⟩ := Machine.mk.inj heq
    refine ⟨hsystem,hlocks,h.current,h.flag,?_⟩
    rintro e' c' ⟨⟩
    exact h.raised _ _ hh
  | leave =>
    obtain ⟨e,c,next,hh,-,hserved,heq⟩ := hstep.leave_inv
    obtain ⟨rfl,rfl,rfl⟩ := Machine.mk.inj heq
    obtain ⟨henabled,-⟩ := resumes h.system (h.enabled (h.raised e c hh)) hserved
    have hall := fun u => h.invariant.enabled u (.inr (by rw [hh]; rfl))
    refine ⟨hsystem,hlocks,rfl,iff_of_true henabled (hall _),fun e c hh => ?_⟩
    cases hh

theorem handles {x y : LockMachine.State Lock Thread Event}
    (h : Runs.Repeats (LockMachine.Step KernelLocks.system) .handle x y) (husable : s.segments.Usable) :
    Runs.Repeats (Step l) .handle { s with locks := x } { s with locks := y } := by
  induction h with
  | refl => exact .refl
  | tail _ hlast ih => exact ih.tail ⟨hlast,husable,rfl,rfl⟩

/-- The handler comes to its end if no thread holds what it takes. -/
theorem serves (h : Linked l s) (hidle : s.locks.handler = none) (husable : s.segments.Usable)
    (he : Raised s.system e) (hclear : ¬ Obstructed s.locks e) : ∃ t, Serves l s e t := by
  obtain ⟨u,hu⟩ := h.enter hidle he
  have hclears := (KernelLocks.clears_iff h.invariant hu.1).mpr hclear
  have hfree : LockMachine.Unobstructed (fun _ => True) u.locks :=
    (LockMachine.unobstructed_idle hidle).step hu.1 hclears
  have hinvariant := (h.step hu).invariant
  obtain ⟨-,-,rfl⟩ := hu.enter_inv
  obtain ⟨v,d,hrun,hh,hdone,-,hstays⟩ := hfree.finishes hinvariant rfl
  obtain ⟨t,ht⟩ := exists_step h.system he
  have hnext : threadOf t.kernel.running = v.current ∨ KernelLocks.system.switches e := by
    refine (resumes h.system (h.enabled he) ht).2.imp_left fun hrunning => ?_
    rw [hstays,h.current,hrunning]
  exact ⟨_,_,_,hu,handles hrun husable,.leaving hh hdone husable hnext ht⟩

/-- A handler in front of a lock that a thread holds is never left, and nothing happens to the threads. -/
theorem stuck (h : Linked l s) (hobstructed : Obstructed s.locks e) {u : Machine} (hstep : Step l s (.enter e) t)
    (hrun : Runs.Reachable (Step l) t u) : u.locks.handler ≠ none ∧ u.system = s.system := by
  have hentered : ¬ LockMachine.Unobstructed (fun _ => True) t.locks := fun hfree =>
    (KernelLocks.clears_iff h.invariant hstep.1).mp (hfree.before h.invariant hstep.1).2 hobstructed
  have hend : Linked l u ∧ ¬ LockMachine.Unobstructed (fun _ => True) u.locks ∧ u.system = s.system := by
    refine hrun.invariant (I := fun u => Linked l u ∧ ¬ LockMachine.Unobstructed (fun _ => True) u.locks ∧
      u.system = s.system) ?_ ⟨h.step hstep,hentered,hstep.2.2.1⟩
    rintro x a y ⟨hx,hblocked,hsame⟩ hxy
    have hstays : ¬ LockMachine.Unobstructed (fun _ => True) y.locks := by
      rcases hxy.locks with heq | ⟨b,hb⟩
      · rwa [heq]
      · exact fun hfree => hblocked (hfree.before hx.invariant hb).1
    exact ⟨hx.step hxy,hstays,(hxy.handling (mt LockMachine.unobstructed_idle hblocked)
      (mt LockMachine.unobstructed_idle hstays)).trans hsame⟩
  exact ⟨fun hidle => hend.2.1 (LockMachine.unobstructed_idle hidle),hend.2.2⟩

end Linked

theorem Start.linked {l : Layout} {s : Machine} (h : Start l s) : Linked l s := by
  obtain ⟨hlocks,-,boot,name,entryPoint,stack,first,last,hboot,hfirst,hwork,hjump⟩ := h
  have hreached : Runs.Reachable (Contexts.Step l) first s.system :=
    hwork.reachable.tail ⟨_,hjump⟩
  obtain ⟨hring,hmain,-,hroom,-,hexec⟩ := hjump
  obtain ⟨hkernel,hcontext,-⟩ := Interrupts.switchToUserMode_exec hexec hring hroom
  have henabled : Enabled s.system := by
    rw [Enabled,hcontext]
    change (0x202 : UInt32) &&& interruptFlag ≠ 0
    decide
  refine ⟨⟨boot,name,entryPoint,stack,first,hboot,hfirst,hreached⟩,by rw [hlocks]; exact .refl,?_,?_,?_⟩
  · rw [hlocks,hkernel,hmain]
    rfl
  · rw [hlocks]
    exact iff_of_true henabled rfl
  · rw [hlocks]
    intro e c hh
    cases hh

theorem Reached.linked {l : Layout} {s : Machine} (h : Reached l s) : Linked l s := by
  obtain ⟨start,hstart,hrun⟩ := h
  exact hrun.invariant (fun _ _ _ hs hstep => hs.step hstep) hstart.linked

theorem Serves.effect {l : Layout} {s t : Machine} {e : Event} (h : Serves l s e t) :
    Contexts.Step l s.system (eventOf e) t.system ∧ t.locks.handler = none := by
  obtain ⟨u,v,hu,hhandle,hleave⟩ := h
  have hkept : (∃ c, v.locks.handler = some (e,c)) ∧ v.system = s.system := by
    obtain ⟨-,-,rfl⟩ := hu.enter_inv
    refine hhandle.invariant (I := fun v => (∃ c, v.locks.handler = some (e,c)) ∧ v.system = s.system) ?_
      ⟨⟨_,rfl⟩,rfl⟩
    rintro x y ⟨⟨c,hc⟩,hsame⟩ hstep
    obtain ⟨e',c',i,rest,owner,hh,-,rfl⟩ := hstep.handle_inv
    obtain ⟨rfl,rfl⟩ := Prod.mk.inj (Option.some.inj (hh.symm.trans hc))
    exact ⟨⟨_,rfl⟩,hsame⟩
  obtain ⟨⟨c,hc⟩,hsame⟩ := hkept
  obtain ⟨e',c',system,hh,-,hserved,rfl⟩ := hleave.leave_inv
  obtain ⟨rfl,-⟩ := Prod.mk.inj (Option.some.inj (hh.symm.trans hc))
  rw [← hsame]
  exact ⟨hserved,rfl⟩

/-- An event that is raised in a reached state is served to the end, with the effect that it has on
the threads, unless it is a key in the pop block or a printing call in `clear_screen`; such a
handler is entered and never left again. -/
theorem handlers_return {l : Layout} {s : Machine} (h : Reached l s) (hidle : s.locks.handler = none)
    (husable : s.segments.Usable) {e : Event} (he : Raised s.system e) :
    ((∃ t, Serves l s e t) ↔ ¬ Obstructed s.locks e) ∧
    (∀ t, Serves l s e t → Contexts.Step l s.system (eventOf e) t.system ∧ t.locks.handler = none) ∧
    (Obstructed s.locks e → (∃ t, Step l s (.enter e) t) ∧ ∀ t u, Step l s (.enter e) t →
      Runs.Reachable (Step l) t u → u.locks.handler ≠ none ∧ u.system = s.system) := by
  have hlinked := h.linked
  refine ⟨⟨?_,hlinked.serves hidle husable he⟩,fun t ht => ht.effect,fun hobstructed => ⟨hlinked.enter hidle he,?_⟩⟩
  · rintro ⟨t,ht⟩ hobstructed
    have hdone := ht.effect.2
    obtain ⟨u,v,hu,hhandle,hleave⟩ := ht
    have hrun : Runs.Reachable (Step l) u t := hhandle.reachable.tail ⟨_,hleave⟩
    exact (hlinked.stuck hobstructed hu hrun).1 hdone
  · exact fun t u ht hrun => hlinked.stuck hobstructed ht hrun

theorem idles {l : Layout} {s : Contexts.System} (h : Contexts.Good l s) : Contexts.Step l s .work s := by
  refine ⟨rfl,rfl,?_⟩
  unfold Contexts.System.Works
  split_ifs with hring hmain
  · refine ⟨rfl,rfl,.refl,?_⟩
    have hboot := h.runs.resolve_right fun hfits => by simp [Contexts.Fits,hmain,hring] at hfits
    exact hboot.masked
  · have hfits := h.runs.resolve_left fun hboot => hmain hboot.running
    rw [Contexts.Fits,if_neg hmain] at hfits
    exact ⟨rfl,rfl,.refl,hfits.2.2⟩
  · obtain ⟨hmain,hfits⟩ := h.user_runs hring
    rw [Contexts.Fits,if_pos hmain] at hfits
    exact ⟨hfits,.refl⟩

theorem user_usable : DataSegments.user.Usable := by
  have hwritable : DataSegments.Writable 0x23 := fun tssBase =>
    (Tables.exists_segmentAt
      (P := fun a => Segment.WritableData ⟨0,0,a,0⟩ ∧ Segment.Present ⟨0,0,a,0⟩) tssBase 0x23).mpr
      (by decide)
  exact ⟨hwritable,hwritable⟩

theorem sampleStart_machine : ∃ t, Start Contexts.sampleLayout ⟨t,KernelLocks.start,.user⟩ ∧ Enabled t ∧
    ring t.cpu.cs ≠ 0 ∧ t.kernel = Contexts.sampleStart.kernel := by
  obtain ⟨t,ht,hflag,hring⟩ := Contexts.sampleStart_user
  have hkernel := (Interrupts.switchToUserMode_exec ht.2.2.2.2.2 ht.1 ht.2.2.2.1).1
  exact ⟨t,⟨rfl,rfl,_,_,_,_,_,_,Contexts.sampleBoot_boot,Contexts.sampleStart_step,.refl,ht⟩,hflag,hring,hkernel⟩

open Scheduler in
theorem sampleStart_tick {esp : UInt32} {t : Traced}
    (h : Contexts.sampleStart.kernel.sched.Call (.scheduleNext esp) t) : t.running = 2 := by
  have hrunning : (Contexts.sampleStart.kernel.sched.apply (.scheduleNext esp)).map Traced.running = .ok 2 := by
    simp [Contexts.sampleStart,Traced.apply,Traced.new,TaskManager.new,TaskManager.scheduleNext,
      TaskManager.ensureMainTaskTracked,TaskManager.wakeSleepingTasks,TaskManager.wake,
      TaskManager.cleanupTerminatedNonCurrent,TaskManager.cleanupLoop,Task.new,Task.placeholderMain,
      TaskManager.clampUnlessEmpty,TaskManager.clamp,TaskManager.saveOrRetireCurrent,TaskManager.resumeNext,
      TaskManager.nextReadyAfter,TaskManager.readyAt,TaskState.isReady,indexTask,Traced.selectedId,bind,
      Except.bind,Except.map,List.range']
  rw [show _ = _ from h] at hrunning
  exact Except.ok.inj hrunning

theorem sampleStart_background {s t : Contexts.System} (hkernel : s.kernel = Contexts.sampleStart.kernel)
    (ht : Contexts.Step Contexts.sampleLayout s .timer t) : threadOf t.kernel.running = .background := by
  obtain ⟨r,flags,-,⟨sp,after,-,hcall,-⟩,-⟩ := Interrupts.timerInterruptWrapper_exec.mp ht.2.2
  rw [hkernel] at hcall
  rw [threadOf,if_neg (by rw [Contexts.Kernel.running,sampleStart_tick hcall]; decide)]

theorem queue_obstructs : ∃ s, Reached Contexts.sampleLayout s ∧ s.locks.handler = none ∧ s.segments = .user ∧
    Raised s.system .keyboard ∧ Obstructed s.locks .keyboard := by
  obtain ⟨t,hstart,hflag,-,hkernel⟩ := sampleStart_machine
  obtain ⟨u,hu⟩ := exists_step (e := .timer) hstart.linked.system hflag
  have hthread := sampleStart_background hkernel hu
  have henabled := (resumes hstart.linked.system hflag hu).1
  have hidles := idles (hstart.linked.system.step hu).good
  suffices hrun : ∃ s, Runs.Reachable (Step Contexts.sampleLayout) ⟨t,KernelLocks.start,.user⟩ s ∧
      s.locks.handler = none ∧ s.segments = .user ∧ Enabled s.system ∧ Obstructed s.locks .keyboard by
    obtain ⟨s,hreach,hs⟩ := hrun
    exact ⟨s,⟨_,hstart,hreach⟩,hs⟩
  refine Runs.leads_of_step (a := .enter .timer) (t := ⟨t,_,.user⟩) ⟨.enter rfl rfl trivial,hflag,rfl,rfl⟩ ?_
  iterate 4 refine Runs.leads_of_step (a := .handle) (t := ⟨t,_,.user⟩) ⟨.handle rfl rfl rfl,user_usable,rfl,rfl⟩ ?_
  refine Runs.leads_of_step (a := .leave) (.leaving rfl rfl user_usable (.inr trivial) hu) ?_
  rw [hthread]
  refine Runs.leads_of_step (a := .fetch _) (t := ⟨u,_,.user⟩) ⟨.fetch rfl rfl ⟨[],false,by decide,rfl⟩,rfl,rfl⟩ ?_
  refine Runs.leads_of_step (a := .exec) (t := ⟨u,_,.user⟩) ⟨.exec rfl rfl rfl,hidles,iff_of_true henabled rfl,rfl⟩ ?_
  exact ⟨_,.refl,rfl,rfl,henabled,.inl ⟨rfl,rfl⟩⟩

theorem handlers_return_sample :
    (∃ s t, Reached Contexts.sampleLayout s ∧ Serves Contexts.sampleLayout s .timer t) ∧
    ∃ s, Reached Contexts.sampleLayout s ∧ Raised s.system .keyboard ∧
      ¬ ∃ t, Serves Contexts.sampleLayout s .keyboard t := by
  constructor
  · obtain ⟨t,hstart,hflag,-⟩ := sampleStart_machine
    have hreached : Reached Contexts.sampleLayout ⟨t,KernelLocks.start,.user⟩ := ⟨_,hstart,.refl⟩
    have hclear : ¬ Obstructed KernelLocks.start .timer := by simp [Obstructed]
    obtain ⟨u,hu⟩ := (handlers_return hreached rfl user_usable (e := .timer) hflag).1.mpr hclear
    exact ⟨_,u,hreached,hu⟩
  · obtain ⟨s,hs,hidle,hsegments,hkey,hobstructed⟩ := queue_obstructs
    have husable : s.segments.Usable := hsegments ▸ user_usable
    exact ⟨s,hs,hkey,fun hserved => (handlers_return hs hidle husable hkey).1.mp hserved hobstructed⟩

end LockedThreads
end EnosKernel
