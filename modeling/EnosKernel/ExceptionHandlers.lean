import EnosKernel.InterruptGates
import EnosKernel.LockedThreads

/-! The handlers of the exceptions that the kernel has no answer to: each prints a report on the
serial line and, but for the breakpoint's, stays in a loop with interrupts off. -/
namespace EnosKernel
namespace Exceptions

open ByteMemory Ia32 RustStr
open Contexts (Layout)
open Tables (Handler)

structure InterruptStackFrame where
  instructionPointer : UInt32
  codeSegment : UInt32
  cpuFlags : UInt32
  stackPointer : UInt32
  stackSegment : UInt32
  deriving DecidableEq, Repr

namespace InterruptStackFrame

def ofStack (m : Memory) (esp : UInt32) : InterruptStackFrame :=
  ⟨read m esp,read m (esp+4),read m (esp+8),read m (esp+12),read m (esp+16)⟩

def ofContext (x : Context) : InterruptStackFrame := ⟨x.eip,x.cs,x.eflags,x.regs .esp,x.ss⟩

def field (name : String) (value : UInt32) : List Char :=
  "    ".toList++name.toList++": ".toList++decimal value.toNat++",\n".toList

/-- The derived `{:#?}`. -/
def debug (frame : InterruptStackFrame) : List Char :=
  "InterruptStackFrame \x7b\n".toList++field "instruction_pointer" frame.instructionPointer++
    field "code_segment" frame.codeSegment++field "cpu_flags" frame.cpuFlags++
    field "stack_pointer" frame.stackPointer++field "stack_segment" frame.stackSegment++"\x7d".toList

end InterruptStackFrame

inductive Stmt
  | serialPrintln (text : List Char)
  | loop
  deriving DecidableEq, Repr

def report (headline : List Char) (frame : InterruptStackFrame) : Stmt :=
  .serialPrintln (headline++"\n".toList++frame.debug)

def defaultExceptionHandler (frame : InterruptStackFrame) : List Stmt :=
  [report "EXCEPTION: Unhandled CPU exception".toList frame,.loop]

def defaultExceptionWithCodeHandler (frame : InterruptStackFrame) (errorCode : UInt32) : List Stmt :=
  [report ("EXCEPTION: Unhandled CPU exception with error code ".toList++hexLower errorCode.toNat) frame,.loop]

def breakpointHandler (frame : InterruptStackFrame) : List Stmt :=
  [report "EXCEPTION: BREAKPOINT".toList frame]

def gpfHandler (frame : InterruptStackFrame) (errorCode : UInt32) : List Stmt :=
  [report ("EXCEPTION: General Protection Fault! ErrCode=".toList++hexLower errorCode.toNat) frame,.loop]

def doubleFaultHandler (frame : InterruptStackFrame) (errorCode : UInt32) : List Stmt :=
  [report ("EXCEPTION: Double Fault! ErrCode=".toList++hexLower errorCode.toNat) frame,.loop]

/-- The bodies of the handlers, but for those behind which the threads are. -/
def bodyOf (frame : InterruptStackFrame) (errorCode : UInt32) : Handler → Option (List Stmt)
  | .defaultException => some (defaultExceptionHandler frame)
  | .defaultExceptionWithCode => some (defaultExceptionWithCodeHandler frame errorCode)
  | .breakpoint => some (breakpointHandler frame)
  | .gpf => some (gpfHandler frame errorCode)
  | .doubleFault => some (doubleFaultHandler frame errorCode)
  | .timerInterruptWrapper | .keyboardInterrupt | .pageFaultWrapper | .syscallWrapper => none

/-- What a body prints before it comes to a loop or to its end. -/
def output : List Stmt → List Char
  | [] => []
  | .serialPrintln text::rest => text++['\n']++output rest
  | .loop::_ => []

/-- The wrappers' addresses are those of the machine of threads. -/
def addresses (l : Layout) (others : Handler → UInt32) : Handler → UInt32
  | .timerInterruptWrapper => l.timer
  | .keyboardInterrupt => l.keyboard
  | .pageFaultWrapper => l.pageFault
  | .syscallWrapper => l.syscall
  | h => others h

/-- The threads with their locks, and what is left of the body of an exception's handler. -/
structure Machine where
  threads : LockedThreads.Machine
  handler : Option (List Stmt)

namespace Machine

def cpu (s : Machine) : Cpu := s.threads.system.cpu

def setCpu (s : Machine) (c : Cpu) : Machine :=
  { s with threads := { s.threads with system := { s.threads.system with cpu := c } } }

def serial (s : Machine) : List Char := s.threads.system.kernel.serial

def serialPrintln (s : Machine) (text : List Char) : Machine :=
  { s with threads := { s.threads with system := { s.threads.system with
    kernel := { s.threads.system.kernel with serial := s.serial++text++['\n'] } } } }

end Machine

inductive Act
  | run (a : LockedThreads.Act)
  | exception (vector : ℕ) (source : Source) (code : UInt32)
  | statement

/-- What can be raised while ring 3 runs; the processor raises vector 3 for an instruction only. -/
def Raised (vector : ℕ) (source : Source) : Prop :=
  Tables.Raised 3 vector source ∧ (source = .exception → vector ≠ 3)

/-- The processor in the handler, on the stack that the task state segment names. -/
def arrived (l : Layout) (others : Handler → UInt32) (c : Cpu) (h : Handler) (pushed : Option UInt32) : Cpu :=
  c.enter (kernelStack (Tables.tss l.interruptStack).bytes) (Contexts.gate (addresses l others h)) pushed

/-- The frame lies above the error code. -/
def frameOf (c : Cpu) (pushed : Option UInt32) : InterruptStackFrame :=
  .ofStack c.memory (c.regs .esp+UInt32.ofNat (4*pushed.toList.length))

/-- An exception of ring 3 goes through the table of gates; printing waits for the lock of the serial
line and uses the data segments, and the end of a body returns. -/
def Step (l : Layout) (others : Handler → UInt32) (s : Machine) (a : Act) (t : Machine) : Prop :=
  match a with
  | .run a => s.handler = none ∧ LockedThreads.Step l s.threads a t.threads ∧ t.handler = none
  | .exception vector source code => s.handler = none ∧ s.threads.locks.handler = none ∧
      ring s.cpu.cs ≠ 0 ∧ Raised vector source ∧
      ∃ gate h pushed body, deliver (Tables.idt 0x08 (addresses l others)) 3 vector source code =
          .entered gate (Contexts.gate (addresses l others h)) pushed ∧
        Tables.handlerOf gate = some h ∧
        bodyOf (frameOf (arrived l others s.cpu h pushed) pushed) (pushed.getD 0) h = some body ∧
        t = { s.setCpu (arrived l others s.cpu h pushed) with handler := some body }
  | .statement =>
    match s.handler with
    | none => False
    | some [] => t = { s.setCpu s.cpu.iretd with handler := none }
    | some (.serialPrintln text::rest) => s.threads.segments.Usable ∧ s.threads.locks.owner .serial1 = none ∧
        t = { s.serialPrintln text with handler := some rest }
    | some (.loop::_) => t = s

def Reached (l : Layout) (others : Handler → UInt32) (t : Machine) : Prop :=
  ∃ s, LockedThreads.Start l s ∧ Runs.Reachable (Step l others) ⟨s,none⟩ t

/-- What goes to a handler behind which the threads are. -/
def Routine (vector : ℕ) : Source → Prop
  | .exception => vector = 14
  | .external => vector = 32 ∨ vector = 33
  | .software => vector = 0x80

def routines : List Handler := [.timerInterruptWrapper,.keyboardInterrupt,.pageFaultWrapper,.syscallWrapper]

theorem handlers_routine : ∀ vector < 256, ∀ h ∈ Tables.handlerOf vector,
    (h ∈ routines ↔ vector ∈ [14,32,33,0x80]) ∧ (h = .breakpoint → vector = 3) := by decide +kernel

theorem bodyOf_eq_none {frame : InterruptStackFrame} {errorCode : UInt32} {h : Handler} :
    bodyOf frame errorCode h = none ↔ h ∈ routines := by
  cases h <;> simp [bodyOf,routines]

theorem bodyOf_loops {frame : InterruptStackFrame} {errorCode : UInt32} {h : Handler} {body : List Stmt}
    (hbody : bodyOf frame errorCode h = some body) (hother : h ≠ .breakpoint) :
    ∃ headline, body = [report headline frame,.loop] := by
  cases h with
  | breakpoint => exact absurd rfl hother
  | defaultException => exact ⟨_,(Option.some.inj hbody).symm⟩
  | defaultExceptionWithCode => exact ⟨_,(Option.some.inj hbody).symm⟩
  | gpf => exact ⟨_,(Option.some.inj hbody).symm⟩
  | doubleFault => exact ⟨_,(Option.some.inj hbody).symm⟩
  | timerInterruptWrapper => cases hbody
  | keyboardInterrupt => cases hbody
  | pageFaultWrapper => cases hbody
  | syscallWrapper => cases hbody

theorem not_routine {vector : ℕ} {source : Source} (h : Tables.handlerOf vector = none) : ¬ Routine vector source := by
  intro hroutine
  cases source with
  | exception => rw [show vector = 14 from hroutine] at h; cases h
  | external => rcases hroutine with rfl | rfl <;> cases h
  | software => rw [show vector = 0x80 from hroutine] at h; cases h

/-- Whatever comes while ring 3 runs arrives at a handler, and at one of the threads exactly if it is
routine. -/
theorem delivered (address : Handler → UInt32) {vector : ℕ} {source : Source} (hraised : Raised vector source)
    (code : UInt32) : ∃ gate h pushed,
      deliver (Tables.idt 0x08 address) 3 vector source code = .entered gate (Contexts.gate (address h)) pushed ∧
      Tables.handlerOf gate = some h ∧ h ≠ .breakpoint ∧ (h ∈ routines ↔ Routine vector source) := by
  obtain ⟨hraised,hbreakpoint⟩ := hraised
  have hrefused (hnot : ¬ Routine vector source) : ∃ gate h pushed,
      Tables.refused 0x08 address vector source = .entered gate (Contexts.gate (address h)) pushed ∧
      Tables.handlerOf gate = some h ∧ h ≠ .breakpoint ∧ (h ∈ routines ↔ Routine vector source) :=
    ⟨_,.gpf,_,rfl,rfl,by decide,iff_of_false (by decide) hnot⟩
  rw [Tables.deliver_idt _ _ (by decide)]
  cases hhandler : Tables.handlerOf vector with
  | none => exact hrefused (not_routine hhandler)
  | some h =>
    obtain ⟨hroutine,hthree⟩ := handlers_routine vector (Tables.handlerOf_lt hhandler) h hhandler
    by_cases hsoftware : source = .software ∧ h ≠ .syscallWrapper ∧ (3 : UInt8) ≠ 0
    · simp only [if_pos hsoftware]
      refine hrefused fun hroutine => ?_
      rw [hsoftware.1] at hroutine
      rw [show vector = 0x80 from hroutine] at hhandler
      exact hsoftware.2.1 (Option.some.inj hhandler).symm
    · simp only [if_neg hsoftware]
      simp only [List.mem_cons,List.not_mem_nil,or_false] at hroutine
      cases source with
      | exception =>
        have hvector : vector < 32 := hraised
        refine ⟨vector,h,_,rfl,hhandler,fun heq => hbreakpoint rfl (hthree heq),hroutine.trans ?_⟩
        simp only [Routine]
        omega
      | external =>
        have hvector : 32 ≤ vector ∧ vector < 48 := hraised
        refine ⟨vector,h,_,rfl,hhandler,fun heq => by have := hthree heq; omega,hroutine.trans ?_⟩
        simp only [Routine]
        omega
      | software =>
        obtain rfl : h = .syscallWrapper := by
          by_contra hother
          exact hsoftware ⟨rfl,hother,by decide⟩
        have hvector := Tables.handlerOf_syscall hhandler
        exact ⟨vector,_,_,rfl,hhandler,by decide,iff_of_true (by decide) hvector⟩

theorem InterruptStackFrame.ofStack_eq {m : Memory} {esp eip cs eflags sp ss : UInt32}
    (h : WordsAt m esp [eip,cs,eflags,sp,ss]) : ofStack m esp = ⟨eip,cs,eflags,sp,ss⟩ := by
  rw [ofStack,mk.injEq]
  exact ⟨h.1,h.get (i := 1) rfl,h.get (i := 2) rfl,h.get (i := 3) rfl,h.get (i := 4) rfl⟩

section Runs

variable {l : Layout} {others : Handler → UInt32} {s t : Machine} {a : Act}

theorem frame_arrived {c : Cpu} (hring : ring c.cs ≠ 0) (h : Handler) (pushed : Option UInt32) :
    frameOf (arrived l others c h pushed) pushed = .ofContext c.toContext := by
  have htop := l.esp0_toNat
  have hframe : c.trapFrame = [c.eip,c.cs,c.eflags,c.regs .esp,c.ss] := by simp [Context.trapFrame,hring]
  have hlen : pushed.toList.length ≤ 1 := by cases pushed <;> simp
  have hgrown := c.enter_grown l.tss (Contexts.gate (addresses l others h)) pushed
    (by rw [hframe,Context.kernelEsp,if_neg hring]; simp only [List.length_cons,List.length_nil]; omega)
  have hwords := hgrown.words
  rw [hframe,← Tables.kernelStack_tss] at hwords
  cases pushed with
  | none =>
    rw [frameOf,Option.toList_none,List.length_nil,show UInt32.ofNat (4*0) = 0 from rfl,UInt32.add_zero]
    exact InterruptStackFrame.ofStack_eq hwords
  | some code => exact InterruptStackFrame.ofStack_eq hwords.2

theorem Step.exception_inv {vector : ℕ} {source : Source} {code : UInt32}
    (hstep : Step l others s (.exception vector source code) t) : ¬ Routine vector source ∧ ∃ headline,
      t.handler = some [report headline (.ofContext s.cpu.toContext),.loop] ∧
      t.threads.locks = s.threads.locks ∧ t.threads.segments = s.threads.segments ∧
      t.threads.system.kernel = s.threads.system.kernel := by
  obtain ⟨-,-,hring,hraised,gate,h,pushed,body,hdeliver,hhandler,hbody,rfl⟩ := hstep
  obtain ⟨gate',h',pushed',hdeliver',hhandler',hother,hroutine⟩ := delivered (addresses l others) hraised code
  obtain ⟨rfl,-,-⟩ := Delivery.entered.inj (hdeliver.symm.trans hdeliver')
  obtain rfl := Option.some.inj (hhandler.symm.trans hhandler')
  rw [frame_arrived hring] at hbody
  obtain ⟨headline,rfl⟩ := bodyOf_loops hbody hother
  refine ⟨fun hr => ?_,headline,rfl,rfl,rfl,rfl⟩
  rw [bodyOf_eq_none.mpr (hroutine.mpr hr)] at hbody
  cases hbody

theorem Step.statement_locks (hstep : Step l others s .statement t) : t.threads.locks = s.threads.locks := by
  simp only [Step] at hstep
  split at hstep
  · exact hstep.elim
  · rw [hstep]
    rfl
  · rw [hstep.2.2]
    rfl
  · rw [hstep]

/-- A body with a loop in it is never left: all that happens is that it prints. -/
theorem Step.loops (hstep : Step l others s a t) {body : List Stmt} (hbody : s.handler = some body)
    (hloop : .loop ∈ body) : a = .statement ∧ t.threads.locks = s.threads.locks ∧
      t.threads.system = { s.threads.system with kernel := { s.threads.system.kernel with serial := t.serial } } ∧
      ∃ rest, t.handler = some rest ∧ .loop ∈ rest ∧ t.serial++output rest = s.serial++output body := by
  cases a with
  | run a =>
    have hnone := hstep.1
    simp [hbody] at hnone
  | exception vector source code =>
    have hnone := hstep.1
    simp [hbody] at hnone
  | statement =>
    simp only [Step,hbody] at hstep
    cases body with
    | nil => simp at hloop
    | cons stmt rest =>
      cases stmt with
      | serialPrintln text =>
        obtain ⟨-,-,rfl⟩ := hstep
        refine ⟨rfl,rfl,rfl,rest,rfl,by simpa using hloop,?_⟩
        simp [output,Machine.serial,Machine.serialPrintln]
      | loop =>
        obtain rfl := hstep
        exact ⟨rfl,rfl,rfl,_,hbody,hloop,rfl⟩

/-- The threads are in order until an exception comes, and what its handler does has no end. -/
def Sound (l : Layout) (s : Machine) : Prop :=
  (s.handler = none → LockedThreads.Linked l s.threads) ∧ ∀ body, s.handler = some body → .loop ∈ body

theorem Sound.step (h : Sound l s) (hstep : Step l others s a t) : Sound l t := by
  cases hs : s.handler with
  | some body =>
    obtain ⟨-,-,-,rest,hrest,hloop,-⟩ := hstep.loops hs (h.2 body hs)
    refine ⟨fun hnone => by simp [hrest] at hnone,fun body hbody => ?_⟩
    obtain rfl := Option.some.inj (hrest.symm.trans hbody)
    exact hloop
  | none =>
    cases a with
    | run a =>
      obtain ⟨-,hrun,hnone⟩ := hstep
      exact ⟨fun _ => (h.1 hs).step hrun,fun body hbody => by simp [hnone] at hbody⟩
    | exception vector source code =>
      obtain ⟨-,headline,hbody,-⟩ := hstep.exception_inv
      refine ⟨fun hnone => by simp [hbody] at hnone,fun body hbody' => ?_⟩
      obtain rfl := Option.some.inj (hbody.symm.trans hbody')
      simp
    | statement => simp [Step,hs] at hstep

theorem Reached.sound (h : Reached l others s) : Sound l s := by
  obtain ⟨start,hstart,hrun⟩ := h
  refine hrun.invariant (I := Sound l) (fun _ _ _ hs hstep => hs.step hstep) ⟨fun _ => hstart.linked,?_⟩
  intro body hbody
  cases hbody

end Runs

variable {l : Layout} {others : Handler → UInt32} {s t : Machine}

def Doomed (s : Machine) (body : List Stmt) (t : Machine) : Prop :=
  t.threads.locks = s.threads.locks ∧
  t.threads.system = { s.threads.system with kernel := { s.threads.system.kernel with serial := t.serial } } ∧
  ∃ rest, t.handler = some rest ∧ .loop ∈ rest ∧ t.serial++output rest = s.serial++output body

theorem Doomed.step {body : List Stmt} {u : Machine} {a : Act} (h : Doomed s body t) (hstep : Step l others t a u) :
    a = .statement ∧ Doomed s body u := by
  obtain ⟨hlocks,hsystem,rest,hrest,hloop,hprinted⟩ := h
  obtain ⟨ha,hlocks',hsystem',rest',hrest',hloop',hprinted'⟩ := hstep.loops hrest hloop
  refine ⟨ha,hlocks'.trans hlocks,?_,rest',hrest',hloop',hprinted'.trans hprinted⟩
  rw [hsystem',hsystem]

theorem Doomed.along {body : List Stmt} (h : Doomed s body t) {path : List (Act × Machine)}
    (hpath : Runs.Along (Step l others) t path) :
    Runs.Along (fun _ a _ => a = .statement) t path ∧ Doomed s body (Runs.final t path) :=
  ⟨hpath.of_invariant (I := Doomed s body) (fun _ _ _ ht hstep => (ht.step hstep).2)
      (fun _ _ _ ht hstep => (ht.step hstep).1) h,
    hpath.reachable.invariant (fun _ _ _ ht hstep => (ht.step hstep).2) h⟩

end Exceptions
end EnosKernel
