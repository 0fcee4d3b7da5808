import EnosKernel.ByteMemory
import EnosKernel.Paging
import EnosKernel.RustStr
import EnosKernel.SchedulerSafety

/-! The dispatchers behind the assembly wrappers: `syscall.rs` and the page-fault dispatcher of
`interrupts.rs`, with the task table they work on and the two consoles they print to. -/
namespace EnosKernel
namespace Syscalls

open ByteMemory RustStr Scheduler

/-- The statics that the dispatchers reach: the task table and what was printed so far. -/
structure Kernel where
  manager : TaskManager
  screen : List Char
  serial : List Char
  deriving DecidableEq, Repr

def Kernel.println (k : Kernel) (text : List Char) : Kernel := { k with screen := k.screen++text++['\n'] }

def Kernel.serialPrintln (k : Kernel) (text : List Char) : Kernel := { k with serial := k.serial++text++['\n'] }

def errInvalidUtf8 : UInt32 := 3
def errInvalidContext : UInt32 := 4
def errNotImplemented : UInt32 := 0xFFFFFFFF

def sysPrint (k : Kernel) (memory : Memory) (arg1 arg2 : UInt32) : UInt32 × Kernel :=
  match Paging.validateUserBuffer arg1 arg2 with
  | .error code => (code,k)
  | .ok (ptr,len) =>
    match fromUtf8 (bytesAt memory ptr len.toNat) with
    | some s => (0,(k.println ("[Ring 3] ".toList++s)).serialPrintln ("[Syscall SYS_PRINT] ".toList++s))
    | none => (errInvalidUtf8,k)

/-- The arms of `SYS_YIELD` and `SYS_SLEEP`. -/
def sysSleep (k : Kernel) (currentEsp ticks : UInt32) : UInt32 × Kernel :=
  let (slept,manager) := k.manager.sleepCurrentTask currentEsp ticks
  (if slept then 0 else errInvalidContext,{ k with manager := manager })

def syscallDispatcher (k : Kernel) (memory : Memory)
    (syscallNumber arg1 arg2 _arg3 _arg4 _arg5 currentEsp : UInt32) : UInt32 × Kernel :=
  match syscallNumber with
  | 1 => sysPrint k memory arg1 arg2
  | 2 => sysSleep k currentEsp 1
  | 3 => sysSleep k currentEsp arg1
  | _ => (errNotImplemented,k.serialPrintln ("[Syscall] UNKNOWN SYSCALL: ".toList++decimal syscallNumber.toNat))

def faultReport (faultAddr errorCode : UInt32) : List Char :=
  " PAGE FAULT addr=".toList++hexLower faultAddr.toNat++ " err=".toList++hexLower errorCode.toNat++
    " kind=".toList++(if errorCode &&& 1 ≠ 0 then "protection" else "not-present").toList++
    " access=".toList++(if errorCode &&& 2 ≠ 0 then "write" else "read").toList

def pageFaultDispatcher (k : Kernel) (currentEsp faultAddr errorCode : UInt32) : Except Panic (UInt32 × Kernel) :=
  if errorCode &&& 4 ≠ 0 then do
    let k := k.serialPrintln ("EXCEPTION: USER".toList++faultReport faultAddr errorCode)
    let (sp,manager) ← k.manager.terminateCurrentUserTaskFromFault currentEsp
    .ok (sp,{ k with manager := manager })
  else .error (.explicit (String.ofList ("KERNEL".toList++faultReport faultAddr errorCode)))

/-- The current thread is one that a sleep call may put to sleep. -/
def MayPause (m : TaskManager) : Prop :=
  m.mainTaskTracked = false ∨
    ∃ task, m.tasks[m.currentTaskIdx]? = some task ∧ task.privilege = .user ∧ task.state ≠ .terminated

/-- The running thread sleeps from now on, with its stack pointer saved, and no other is touched. -/
structure Pauses (s : Traced) (esp ticks : UInt32) (after : TaskManager) : Prop where
  sleeps : ∃ task, after.tasks[after.currentTaskIdx]? = some task ∧ task.id = s.running ∧ task.privilege = .user ∧
    task.state = .sleeping (s.manager.tickCount+max 1 ticks.toUInt64) ∧ task.stackPtr = esp
  others : ∀ task, task.id ≠ s.running → (task ∈ after.tasks ↔ task ∈ s.manager.tasks)
  counters : after.tickCount = s.manager.tickCount ∧ after.nextTaskId = s.manager.nextTaskId

theorem mem_ensure {s : Traced} (h : Invariant s) (esp : UInt32) {task : Task} (hid : task.id ≠ s.running) :
    task ∈ (s.ensure esp).manager.tasks ↔ task ∈ s.manager.tasks := by
  cases ht : s.manager.mainTaskTracked with
  | true => simp [Traced.ensure,TaskManager.ensureMainTaskTracked,ht]
  | false =>
    have hmain : task ≠ Task.placeholderMain esp := by
      rintro rfl
      exact hid (h.untracked ht).1.symm
    simp [Traced.ensure,TaskManager.ensureMainTaskTracked,ht,hmain]

theorem ensure_counters (s : Traced) (esp : UInt32) : (s.ensure esp).manager.tickCount = s.manager.tickCount ∧
    (s.ensure esp).manager.nextTaskId = s.manager.nextTaskId := by
  simp only [Traced.ensure,TaskManager.ensureMainTaskTracked]
  split_ifs <;> exact ⟨rfl,rfl⟩

theorem mayPause_iff {s : Traced} {esp : UInt32} {current : Task}
    (hcur : (s.ensure esp).manager.tasks[(s.ensure esp).manager.currentTaskIdx]? = some current) :
    MayPause s.manager ↔ current.privilege = .user ∧ current.state ≠ .terminated := by
  cases ht : s.manager.mainTaskTracked with
  | true =>
    have hsame : (s.ensure esp).manager = s.manager := by
      simp [Traced.ensure,TaskManager.ensureMainTaskTracked,ht]
    rw [hsame] at hcur
    simp [MayPause,ht,hcur]
  | false =>
    have hfirst : (s.ensure esp).manager.tasks[(s.ensure esp).manager.currentTaskIdx]? =
        some (Task.placeholderMain esp) := by simp [Traced.ensure,TaskManager.ensureMainTaskTracked,ht]
    obtain rfl := Option.some.inj (hcur.symm.trans hfirst)
    exact iff_of_true (Or.inl ht) ⟨rfl,by simp [Task.placeholderMain]⟩

/-- A sleep call is refused exactly for a kernel thread and for a thread that is to be
terminated, and a refusal leaves the table as it is. -/
theorem sleepCurrentTask_outcome {s : Traced} (h : Invariant s) (esp ticks : UInt32) :
    (∃ after, s.manager.sleepCurrentTask esp ticks = (true,after) ∧ MayPause s.manager ∧ Pauses s esp ticks after) ∨
    s.manager.sleepCurrentTask esp ticks = (false,s.manager) ∧ ¬ MayPause s.manager := by
  obtain ⟨current,hcur,hid,hcases⟩ := h.sleepCurrentTask_cases esp ticks
  have hpause := mayPause_iff hcur
  obtain ⟨htick,hnext⟩ := ensure_counters s esp
  rcases hcases with ⟨hrefused,hcall⟩ | ⟨hgranted,hcall⟩
  · have hnot : ¬ MayPause s.manager := fun hmay => hrefused.elim (· (hpause.mp hmay).1) (hpause.mp hmay).2
    have htracked : s.manager.mainTaskTracked = true := by
      by_contra hf
      exact hnot (Or.inl (by simpa using hf))
    exact Or.inr ⟨by simpa [Traced.ensure,TaskManager.ensureMainTaskTracked,htracked] using hcall,hnot⟩
  · obtain ⟨hlt,-⟩ := List.getElem?_eq_some_iff.mp hcur
    refine Or.inl ⟨_,hcall,hpause.mpr hgranted,⟨_,List.getElem?_set_self hlt,hid,hgranted.1,by rw [htick],rfl⟩,?_,
      htick,hnext⟩
    intro task htask
    have hnew : task ≠ { current with
        stackPtr := esp
        state := .sleeping ((s.ensure esp).manager.tickCount+max 1 ticks.toUInt64) } := by
      rintro rfl
      exact htask hid
    rw [KeyedList.mem_set_iff (h.ensure esp).ids_nodup hcur,or_iff_right hnew,hid,and_iff_left htask,
      mem_ensure h esp htask]

theorem sysSleep_outcome {s : Traced} (h : Invariant s) {k : Kernel} (hk : k.manager = s.manager) (esp ticks : UInt32) :
    (∃ after, sysSleep k esp ticks = (0,{ k with manager := after }) ∧ MayPause k.manager ∧ Pauses s esp ticks after) ∨
    sysSleep k esp ticks = (errInvalidContext,k) ∧ ¬ MayPause k.manager := by
  rcases sleepCurrentTask_outcome h esp ticks with ⟨after,hcall,hpause⟩ | ⟨hcall,hpause⟩ <;> rw [← hk] at hcall hpause
  · exact Or.inl ⟨after,by simp [sysSleep,hcall],hpause⟩
  · exact Or.inr ⟨by simp [sysSleep,hcall],hpause⟩

/-- A buffer of one to 1024 bytes in user space that holds the text. -/
structure Holds (memory : Memory) (ptr len : UInt32) (text : List Char) : Prop where
  pos : 1 ≤ len.toNat
  short : len.toNat ≤ Paging.maxPrintLen
  inside : Paging.userRangeContains ptr len = true
  bytes : bytes text = bytesAt memory ptr len.toNat

theorem validateUserBuffer_outcome (ptr len : UInt32) :
    Paging.validateUserBuffer ptr len = .ok (ptr,len) ∧
      (1 ≤ len.toNat ∧ len.toNat ≤ Paging.maxPrintLen) ∧ Paging.userRangeContains ptr len = true ∨
    (∃ code ≠ 0, Paging.validateUserBuffer ptr len = .error code) ∧
      ¬((1 ≤ len.toNat ∧ len.toNat ≤ Paging.maxPrintLen) ∧ Paging.userRangeContains ptr len = true) := by
  rw [← Paging.validateUserBuffer_ok_iff]
  unfold Paging.validateUserBuffer
  split_ifs with hlen hrange
  · exact Or.inr ⟨⟨Paging.errInvalidLength,by decide,rfl⟩,by simp⟩
  · exact Or.inl ⟨rfl,_,rfl⟩
  · exact Or.inr ⟨⟨Paging.errInvalidPointer,by decide,rfl⟩,by simp⟩

theorem sysPrint_outcome (k : Kernel) (memory : Memory) (ptr len : UInt32) :
    (∃ text, Holds memory ptr len text ∧ sysPrint k memory ptr len =
      (0,(k.println ("[Ring 3] ".toList++text)).serialPrintln ("[Syscall SYS_PRINT] ".toList++text))) ∨
    (∀ text, ¬ Holds memory ptr len text) ∧ ∃ code ≠ 0, sysPrint k memory ptr len = (code,k) := by
  rcases validateUserBuffer_outcome ptr len with ⟨hcheck,hlen,hinside⟩ | ⟨⟨code,hcode,hcheck⟩,hout⟩
  · cases htext : fromUtf8 (bytesAt memory ptr len.toNat) with
    | some text =>
      exact Or.inl ⟨text,⟨hlen.1,hlen.2,hinside,fromUtf8_eq_some.mp htext⟩,by simp only [sysPrint,hcheck,htext]⟩
    | none =>
      refine Or.inr ⟨fun text h => ?_,errInvalidUtf8,by decide,by simp only [sysPrint,hcheck,htext]⟩
      rw [fromUtf8_eq_some.mpr h.bytes] at htext
      simp at htext
  · exact Or.inr ⟨fun text h => hout ⟨⟨h.pos,h.short⟩,h.inside⟩,code,hcode,by simp only [sysPrint,hcheck]⟩

def Kernel.printed (k : Kernel) (text : List Char) : Kernel :=
  (k.println ("[Ring 3] ".toList++text)).serialPrintln ("[Syscall SYS_PRINT] ".toList++text)

/-- In every reachable state a system call answers zero exactly if it prints a valid text of the
user's memory or puts the running user task to sleep, which is then all that it does, and one that
answers anything else has changed neither the task table nor the screen. -/
theorem syscall_outcomes {s : Traced} (h : s.Reached) (k : Kernel) (hk : k.manager = s.manager) (memory : Memory)
    (number arg1 arg2 arg3 arg4 arg5 esp : UInt32) :
    let answer := syscallDispatcher k memory number arg1 arg2 arg3 arg4 arg5 esp
    (answer.1 = 0 ↔
      number = 1 ∧ (∃ text, Holds memory arg1 arg2 text) ∨ (number = 2 ∨ number = 3) ∧ MayPause k.manager) ∧
    (answer.1 = 0 →
      number = 1 ∧ (∃ text, Holds memory arg1 arg2 text ∧ answer.2 = k.printed text) ∨
      (number = 2 ∨ number = 3) ∧ ∃ after, Pauses s esp (if number = 2 then 1 else arg1) after ∧
        answer.2 = { k with manager := after }) ∧
    (answer.1 ≠ 0 → answer.2.manager = k.manager ∧ answer.2.screen = k.screen) := by
  intro answer
  by_cases hprint : number = 1
  · subst hprint
    have hanswer : answer = sysPrint k memory arg1 arg2 := rfl
    rcases sysPrint_outcome k memory arg1 arg2 with ⟨text,htext,hcall⟩ | ⟨hnone,code,hcode,hcall⟩
    · rw [hanswer,hcall]
      exact ⟨iff_of_true rfl (Or.inl ⟨rfl,text,htext⟩),fun _ => Or.inl ⟨rfl,text,htext,rfl⟩,by simp⟩
    · rw [hanswer,hcall]
      refine ⟨iff_of_false hcode ?_,fun hzero => absurd hzero hcode,fun _ => ⟨rfl,rfl⟩⟩
      rintro (⟨-,text,htext⟩ | ⟨hsleep | hsleep,-⟩)
      · exact hnone text htext
      · simp at hsleep
      · simp at hsleep
  by_cases hsleep : number = 2 ∨ number = 3
  · have hanswer : answer = sysSleep k esp (if number = 2 then 1 else arg1) := by
      rcases hsleep with rfl | rfl <;> rfl
    rw [hanswer]
    rcases sysSleep_outcome h.invariant hk esp (if number = 2 then 1 else arg1) with
      ⟨after,hcall,hmay,hpauses⟩ | ⟨hcall,hmay⟩ <;> rw [hcall]
    · exact ⟨iff_of_true rfl (Or.inr ⟨hsleep,hmay⟩),fun _ => Or.inr ⟨hsleep,after,hpauses,rfl⟩,by simp⟩
    · have hrefused : errInvalidContext ≠ 0 := by decide
      exact ⟨iff_of_false hrefused (by simp [hprint,hmay]),fun hzero => absurd hzero hrefused,fun _ => ⟨rfl,rfl⟩⟩
  · have hanswer : answer = (errNotImplemented,k.serialPrintln
        ("[Syscall] UNKNOWN SYSCALL: ".toList++decimal number.toNat)) := by
      rw [not_or] at hsleep
      simp only [answer]
      unfold syscallDispatcher
      split <;> simp_all
    have hrefused : errNotImplemented ≠ 0 := by decide
    rw [hanswer]
    exact ⟨iff_of_false hrefused (by simp [hprint,hsleep]),fun hzero => absurd hzero hrefused,fun _ => ⟨rfl,rfl⟩⟩

/-- The first tick has switched to the shell thread, which cannot sleep; before it the user task can,
and a text of the user is printed. -/
theorem syscall_outcomes_firstTick : firstTick.Reached ∧
    (syscallDispatcher ⟨firstTick.manager,[],[]⟩ (fun _ => 0x41) 3 20 0 0 0 0 0x8000).2.manager = firstTick.manager ∧
    (∃ text, Holds (fun _ => 0x41) 0x400000 2 text ∧
      (syscallDispatcher ⟨firstTick.manager,[],[]⟩ (fun _ => 0x41) 1 0x400000 2 0 0 0 0x8000).2 =
        (⟨firstTick.manager,[],[]⟩ : Kernel).printed text) ∧
    ∃ start after, start.Reached ∧ Pauses start 0x9000 20 after ∧
      (syscallDispatcher ⟨start.manager,[],[]⟩ (fun _ => 0x41) 3 20 0 0 0 0 0x9000).2.manager = after := by
  have hrefused := syscall_outcomes firstTick_reached ⟨firstTick.manager,[],[]⟩ rfl (fun _ => 0x41) 3 20 0 0 0 0 0x8000
  have hprints := syscall_outcomes firstTick_reached ⟨firstTick.manager,[],[]⟩ rfl
    (fun _ => 0x41) 1 0x400000 2 0 0 0 0x8000
  have hholds : Holds (fun _ => 0x41) 0x400000 2 ['A','A'] := ⟨by decide,by decide,by decide,by decide⟩
  refine ⟨firstTick_reached,(hrefused.2.2 (by decide)).1,?_,?_⟩
  · rcases hprints.2.1 (hprints.1.mpr (Or.inl ⟨rfl,_,hholds⟩)) with ⟨-,hprinted⟩ | ⟨hsleep,-⟩
    · exact hprinted
    · exact absurd hsleep (by decide)
  · obtain ⟨start,hstart,huntracked⟩ : ∃ start : Traced, start.Reached ∧ start.manager.mainTaskTracked = false :=
      ⟨_,⟨"background_thread",0x180000,_,rfl,.refl⟩,rfl⟩
    have hsleeps := syscall_outcomes hstart ⟨start.manager,[],[]⟩ rfl (fun _ => 0x41) 3 20 0 0 0 0 0x9000
    have hanswered := hsleeps.1.mpr (Or.inr ⟨Or.inr rfl,Or.inl huntracked⟩)
    rcases hsleeps.2.1 hanswered with ⟨hprint,-⟩ | ⟨-,after,hpauses,hafter⟩
    · exact absurd hprint (by decide)
    · exact ⟨start,after,hstart,hpauses,by rw [hafter]⟩

theorem syscallDispatcher_congr {m m' : Memory}
    (hagree : AgreeOn {b | Paging.userSpaceStart.toNat ≤ b.toNat ∧ b.toNat < Paging.userSpaceEnd.toNat} m m')
    (k : Kernel)
    (number arg1 arg2 arg3 arg4 arg5 esp : UInt32) :
    syscallDispatcher k m number arg1 arg2 arg3 arg4 arg5 esp =
      syscallDispatcher k m' number arg1 arg2 arg3 arg4 arg5 esp := by
  have hprint : sysPrint k m arg1 arg2 = sysPrint k m' arg1 arg2 := by
    rcases validateUserBuffer_outcome arg1 arg2 with ⟨hcheck,-,hinside⟩ | ⟨⟨code,-,hcheck⟩,-⟩
    · obtain ⟨-,hstart,hend⟩ := Paging.userRangeContains_iff.mp hinside
      have hspan : AgreeOn (span arg1 arg2.toNat) m m' :=
        hagree.mono fun b hb => ⟨hstart.trans hb.1,hb.2.trans_le hend⟩
      have htop : Paging.userSpaceEnd.toNat ≤ 2^32 := by decide
      simp only [sysPrint,hcheck,bytesAt_congr (hend.trans htop) hspan]
    · simp only [sysPrint,hcheck]
  unfold syscallDispatcher
  split
  · exact hprint
  all_goals rfl

theorem syscallDispatcher_manager (k : Kernel) (memory : Memory) (number arg1 arg2 arg3 arg4 arg5 esp : UInt32) :
    (syscallDispatcher k memory number arg1 arg2 arg3 arg4 arg5 esp).2.manager = k.manager ∨
    ∃ ticks, (syscallDispatcher k memory number arg1 arg2 arg3 arg4 arg5 esp).2.manager =
      (k.manager.sleepCurrentTask esp ticks).2 := by
  unfold syscallDispatcher
  split
  · refine Or.inl ?_
    rcases sysPrint_outcome k memory arg1 arg2 with ⟨text,-,hcall⟩ | ⟨-,code,-,hcall⟩
    · rw [hcall]
      rfl
    · rw [hcall]
  · exact Or.inr ⟨1,rfl⟩
  · exact Or.inr ⟨arg1,rfl⟩
  · exact Or.inl rfl

/-- A system call learns nothing from memory that the user could not read itself. -/
theorem syscall_reads_user_memory_only (place : Paging.Placement) {m m' : Memory}
    (hagree : AgreeOn {b | Paging.UserAccessible place b.toNat} m m') (k : Kernel)
    (number arg1 arg2 arg3 arg4 arg5 esp : UInt32) :
    syscallDispatcher k m number arg1 arg2 arg3 arg4 arg5 esp =
      syscallDispatcher k m' number arg1 arg2 arg3 arg4 arg5 esp :=
  syscallDispatcher_congr (hagree.mono fun _ hb => (Paging.userAccessible_iff place).mpr hb) k number
    arg1 arg2 arg3 arg4
    arg5 esp

/-- A byte of the kernel differs; the text is read from user space. -/
theorem syscall_reads_user_memory_only_one_byte :
    (Function.update (fun _ => 0x41) 0x100000 0 : Memory) ≠ (fun _ => 0x41) ∧
    syscallDispatcher ⟨.new,[],[]⟩ (Function.update (fun _ => 0x41) 0x100000 0) 1 0x400000 3 0 0 0 0x8000 =
      syscallDispatcher ⟨.new,[],[]⟩ (fun _ => 0x41) 1 0x400000 3 0 0 0 0x8000 := by
  refine ⟨fun h => absurd (congrFun h 0x100000) (by simp),syscall_reads_user_memory_only
    ⟨0x00120000,0x00121000,0x00122000,by decide,by decide,by decide,by decide,by decide,by decide⟩ ?_ _ _ _ _ _ _ _ _⟩
  intro b hb
  have huser := (Paging.userAccessible_iff _).mp hb
  have hne : b ≠ 0x100000 := by
    rintro rfl
    exact absurd huser.1 (by decide)
  exact Function.update_of_ne hne _ _

end Syscalls
end EnosKernel
