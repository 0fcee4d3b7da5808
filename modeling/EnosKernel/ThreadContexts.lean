import EnosKernel.InterruptWrappers
import EnosKernel.SavedPointers
import EnosKernel.Syscalls

/-! The processor, the memory with its stacks and the kernel's data as one machine: threads at
work, and the interrupts that save one context on a stack and go on with another. -/
namespace EnosKernel
namespace Contexts

open ByteMemory Ia32 Interrupts Scheduler

def kernelCode : UInt32 := 0x08
def kernelData : UInt32 := 0x10

/-- What boot has fixed: the page tables, the interrupt stack below user space and the addresses
of the handlers. -/
structure Layout where
  place : Paging.Placement
  interruptStack : UInt32
  timer : UInt32
  keyboard : UInt32
  pageFault : UInt32
  syscall : UInt32
  low : interruptStack.toNat+stackSize.toNat ≤ Paging.userSpaceStart.toNat

/-- `set_interrupt_stack`: `esp0` is the end of the stack. -/
def Layout.tss (l : Layout) : Tss := ⟨l.interruptStack+stackSize,kernelData⟩

def gate (handler : UInt32) : Gate := ⟨kernelCode,handler⟩

structure Kernel where
  sched : Traced
  screen : List Char
  serial : List Char

namespace Kernel

def statics (k : Kernel) : Syscalls.Kernel := ⟨k.sched.manager,k.screen,k.serial⟩

/-- What a system call leaves; a sleep call may have tracked the initial thread. -/
def afterSyscall (k : Kernel) (after : Syscalls.Kernel) (esp : UInt32) : Kernel where
  sched := { k.sched with
    manager := after.manager
    created := k.sched.noteMain after.manager esp }
  screen := after.screen
  serial := after.serial

def running (k : Kernel) : ℕ := k.sched.running

def saved (k : Kernel) : ℕ → Option UInt32 := pointers k.sched.manager.tasks

/-- The threads whose stacks are in use. -/
def Live (k : Kernel) (id : ℕ) : Prop := id = k.running ∨ (k.saved id).isSome

end Kernel

def stackOf (bases : ℕ → UInt32) (id : ℕ) : Set UInt32 := span (bases id) stackSize.toNat

def foreign (bases : ℕ → UInt32) (k : Kernel) : Set UInt32 :=
  {b | ∃ id, id ≠ k.running ∧ k.Live id ∧ b ∈ stackOf bases id}

/-- What a function called from a handler leaves alone: the stacks of other threads, and its own
from the frame of the handler on. -/
def kept (bases : ℕ → UInt32) (k : Kernel) (frame : UInt32) : Set UInt32 :=
  foreign bases k ∪ {b ∈ stackOf bases k.running | frame.toNat ≤ b.toNat}

/-- The functions that the wrappers call, with their arguments on the stack; whether they get the locks
that they need is left to the machine that has the locks. -/
def calls (bases : ℕ → UInt32) : Callee → Kernel × Cpu → Kernel × Cpu → Prop
  | .schedulerTick, (k,c), (k',d) => ∃ sp after,
    k.sched.manager.scheduleNext (arg c 0) = .ok (sp,after) ∧
    k.sched.Call (.scheduleNext (arg c 0)) k'.sched ∧ k'.screen = k.screen ∧ k'.serial = k.serial ∧
    d.regs .eax = sp ∧ Returns (kept bases k (c.regs .esp+4)) c d
  | .pageFaultDispatcher, (k,c), (k',d) => ∃ sp,
    Syscalls.pageFaultDispatcher k.statics (arg c 0) (arg c 1) (arg c 2) = .ok (sp,k'.statics) ∧
    k.sched.Call (.terminateFromFault (arg c 0)) k'.sched ∧
    d.regs .eax = sp ∧ Returns (kept bases k (c.regs .esp+12)) c d
  | .syscallDispatcher, (k,c), (k',d) =>
    let answer := Syscalls.syscallDispatcher k.statics c.memory (arg c 0) (arg c 1) (arg c 2) (arg c 3)
      (arg c 4) (arg c 5) (arg c 6)
    k' = k.afterSyscall answer.2 (arg c 6) ∧
    d.regs .eax = answer.1 ∧ Returns (kept bases k (c.regs .esp+28)) c d
  | .keyboardInterrupt, (k,c), (k',d) => k' = k ∧ d.regs = c.regs ∧ Returns (kept bases k (c.regs .esp)) c d

/-- The processor, the kernel and the address of every thread's stack; that of the initial
thread is the interrupt stack. -/
structure System where
  cpu : Cpu
  kernel : Kernel
  bases : ℕ → UInt32

/-- A stack pointer with room for an interrupt and the arguments of a call below it. -/
def InStack (base esp : UInt32) : Prop :=
  base.toNat+72 ≤ esp.toNat ∧ esp.toNat ≤ base.toNat+stackSize.toNat

/-- The running thread executes instructions of its own: in ring 3 the page tables confine what
it writes, in the kernel its stack discipline does.  Boot code runs with interrupts off. -/
def System.Works (l : Layout) (s : System) (c : Cpu) : Prop :=
  if ring s.cpu.cs = 0 then
    c.cs = s.cpu.cs ∧ c.ss = s.cpu.ss ∧ AgreeOn (foreign s.bases s.kernel) s.cpu.memory c.memory ∧
    if s.kernel.running = 1 then c.eflags &&& interruptFlag = 0
    else InStack (s.bases s.kernel.running) (c.regs .esp)
  else ring c.cs = 3 ∧ AgreeOn {b | ¬ Paging.UserAccessible l.place b.toNat} s.cpu.memory c.memory

/-- The stack of `Task::new`, and the pointer it is left with: zeroes, and at the end EFLAGS, CS,
EIP and the eight words for `popad`. -/
def newStack (cs entryPoint stack : UInt32) : Memory × UInt32 :=
  stored (fun _ => 0) (stack+stackSize) ([0x202,cs,entryPoint]++List.replicate 8 0)

/-- The heap hands out memory below user space that no thread uses as a stack. -/
def System.Free (s : System) (stack : UInt32) : Prop :=
  stack.toNat+stackSize.toNat ≤ Paging.userSpaceStart.toNat ∧
    ∀ id, s.kernel.Live id → Disjoint (span stack stackSize.toNat) (stackOf s.bases id)

def System.Registers (l : Layout) (s : System) (name : String) (entryPoint stack : UInt32) (t : System) : Prop :=
  ring s.cpu.cs = 0 ∧ t.bases = Function.update s.bases s.kernel.sched.manager.nextTaskId stack ∧
    s.kernel.sched.Call (.registerNamedTask name stack) t.kernel.sched ∧ s.Works l t.cpu ∧
    AgreeOn (span stack stackSize.toNat) (newStack s.cpu.cs entryPoint stack).1 t.cpu.memory

inductive Event
  | work
  | timer
  | keyboard
  | syscall
  | pageFault (address code : UInt32)
  | kill (pid : ℕ)
  | registerNamedTask (name : String) (entryPoint stack : UInt32)
  | switchToUserMode
  deriving DecidableEq, Repr

/-- Hardware interrupts need the flag; only ring 3 makes system calls, and the processor sets the
user bit in the code of its page faults; a page fault of the kernel panics and is no step. -/
def Step (l : Layout) (s : System) (e : Event) (t : System) : Prop :=
  match e with
  | .work => t.kernel = s.kernel ∧ t.bases = s.bases ∧ s.Works l t.cpu
  | .timer => s.cpu.eflags &&& interruptFlag ≠ 0 ∧ t.bases = s.bases ∧
    Exec (calls s.bases) timerInterruptWrapper (s.kernel,s.cpu.enter l.tss (gate l.timer) none) (t.kernel,t.cpu)
  | .keyboard => s.cpu.eflags &&& interruptFlag ≠ 0 ∧ t.bases = s.bases ∧
    Exec (calls s.bases) keyboardInterruptHandler (s.kernel,s.cpu.enter l.tss (gate l.keyboard) none)
      (t.kernel,t.cpu)
  | .syscall => ring s.cpu.cs ≠ 0 ∧ t.bases = s.bases ∧
    Exec (calls s.bases) syscallWrapper (s.kernel,s.cpu.enter l.tss (gate l.syscall) none) (t.kernel,t.cpu)
  | .pageFault address code => ring s.cpu.cs ≠ 0 ∧ code &&& 4 ≠ 0 ∧ t.bases = s.bases ∧
    Exec (calls s.bases) pageFaultWrapper
      (s.kernel,{ s.cpu with cr2 := address }.enter l.tss (gate l.pageFault) (some code)) (t.kernel,t.cpu)
  | .kill pid => ring s.cpu.cs = 0 ∧ s.kernel.running ≠ 1 ∧ t.bases = s.bases ∧
    s.kernel.sched.Call (.killTaskByPid pid) t.kernel.sched ∧ s.Works l t.cpu
  | .registerNamedTask name entryPoint stack => s.Free stack ∧ s.Registers l name entryPoint stack t
  | .switchToUserMode => ring s.cpu.cs = 0 ∧ s.kernel.running = 1 ∧ t.bases = s.bases ∧
    20 ≤ (s.cpu.regs .esp).toNat ∧ Disjoint (span (s.cpu.regs .esp-20) 20) (foreign s.bases s.kernel) ∧
    Exec (calls s.bases) switchToUserMode (s.kernel,s.cpu) (t.kernel,t.cpu)

end Contexts
end EnosKernel
