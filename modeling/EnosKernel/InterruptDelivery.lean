import EnosKernel.ExceptionHandlers
import EnosKernel.InterruptController

/-! Devices, interrupt controllers, locks and threads together: requests come in at any time, the
processor takes what the controllers pass on, and a handler reports the end of its interrupt under
the lock of the controllers. -/
namespace EnosKernel
namespace InterruptController

open Ia32 Pic8259
open Contexts (Layout)
open KernelLocks (Lock Thread Event Obstructed)
open Tables (Handler)

structure Machine where
  pics : Pair
  kernel : Exceptions.Machine

namespace Machine

def system (s : Machine) : Contexts.System := s.kernel.threads.system

def locks (s : Machine) : LockMachine.State Lock Thread Event := s.kernel.threads.locks

def Idle (s : Machine) : Prop := s.kernel.handler = none ∧ s.locks.handler = none

end Machine

def eventOf : Handler → Option Event
  | .timerInterruptWrapper => some .timer
  | .keyboardInterrupt => some .keyboard
  | _ => none

/-- What the handler of an event writes when it calls `ack`. -/
def ackOf : Event → Except Panic (List (UInt16 × UInt8))
  | .timer => ack 32
  | .keyboard => ack 33
  | _ => .ok []

def acked (s : Machine) : Except Panic Pair :=
  match s.locks.handler with
  | some (e,c) => if c.code.head? = some (.release .pics) then (ackOf e).map s.pics.outbs else .ok s.pics
  | none => .ok s.pics

inductive Act
  | request (line : Fin 16)
  | interrupt (vector : UInt8)
  | handle
  | out (port : UInt16) (value : UInt8)
  | other (a : Exceptions.Act)

def Apart : Exceptions.Act → Prop
  | .run .handle => False
  | .run (.enter .timer) => False
  | .run (.enter .keyboard) => False
  | .exception _ .external _ => False
  | _ => True

/-- Devices interrupt through the controllers, at the handler that the table has for the vector they
give; a program in ring 3 may write to the ports that the task state segment leaves open.  Vectors
without a handler of a device are no step: the controllers do not give them as they are set up. -/
def Step (l : Layout) (others : Handler → UInt32) (s : Machine) (a : Act) (t : Machine) : Prop :=
  match a with
  | .request line => t = { s with pics := s.pics.request line }
  | .interrupt vector => ∃ h e, s.pics.acknowledge = some (vector,t.pics) ∧
      Tables.handlerOf vector.toNat = some h ∧ eventOf h = some e ∧
      Exceptions.Step l others s.kernel (.run (.enter e)) t.kernel
  | .handle => Exceptions.Step l others s.kernel (.run .handle) t.kernel ∧ acked s = .ok t.pics
  | .out port value => ring s.system.cpu.cs ≠ 0 ∧
      MayUsePort (Tables.tss l.interruptStack).bytes 103 3 s.system.cpu.eflags port.toNat ∧
      Exceptions.Step l others s.kernel (.run .work) t.kernel ∧ t.pics = s.pics.outb port value
  | .other a => Apart a ∧ Exceptions.Step l others s.kernel a t.kernel ∧ t.pics = s.pics

/-- Steps of programs that leave the ports of the controllers alone. -/
def Quiet (l : Layout) (others : Handler → UInt32) (s : Machine) (a : Act) (t : Machine) : Prop :=
  Step l others s a t ∧ ∀ port value, a = .out port value → port ∉ [pic1Cmd,pic1Data,pic2Cmd,pic2Data]

/-- The controllers are initialized, requests coming in meanwhile, and boot has jumped to ring 3. -/
def Boot (l : Layout) (s : Machine) : Prop :=
  (∃ p signals, Pair.outs signals = pics.initializeWrites ∧ s.pics = signals.foldl Pair.react p) ∧
  LockedThreads.Start l s.kernel.threads ∧ s.kernel.handler = none

def Reached (l : Layout) (others : Handler → UInt32) (t : Machine) : Prop :=
  ∃ s, Boot l s ∧ Runs.Reachable (Quiet l others) s t

theorem Initialized.slave_pending {p : Pair} (h : Initialized pics p) : p.slave.pending = none := by
  have hmask : ∀ i, bits 0xFF i = true := by decide
  rw [Option.eq_none_iff_forall_ne_some]
  intro i hi
  have hopen := (Pic.requests_of_pending hi).2
  rw [show p.slave.mask = bits 0xFF by rw [h.slave]; rfl,hmask i] at hopen
  cases hopen

theorem Initialized.master_mask {p : Pair} (h : Initialized pics p) : p.master.mask = bits 0xF8 := by
  rw [h.master]
  rfl

theorem Initialized.acknowledge {p q : Pair} (h : Initialized pics p) {v : UInt8} (hack : p.acknowledge = some (v,q)) :
    ∃ i : Fin 8, i ≤ 1 ∧ p.master.requests i = true ∧ v = 32+UInt8.ofNat i.val ∧
      q = { p with master := p.master.acknowledge i } := by
  obtain ⟨i,hpending,heq⟩ := Option.map_eq_some_iff.mp hack
  obtain ⟨hrequest,hopen⟩ := Pic.requests_of_pending hpending
  have hmask : ∀ i, bits 0xF8 i = false → i ≠ 2 → i ≤ 1 := by decide
  have htwo : i ≠ 2 := by
    rintro rfl
    simp [Pair.wired,h.slave_pending] at hrequest
  rw [if_neg fun hcond => htwo hcond.1] at heq
  obtain ⟨rfl,rfl⟩ := Prod.mk.inj heq
  refine ⟨i,hmask i (by rwa [← h.master_mask]) htwo,?_,by rw [h.master]; rfl,rfl⟩
  simpa [Pair.wired,htwo] using hrequest

theorem Initialized.acknowledge_first {p : Pair} (h : Initialized pics p) {i : Fin 8} (hi : i ≤ 1)
    (hrequest : p.master.requests i = true) (hfirst : ∀ j < i, p.master.requests j = false) :
    p.acknowledge = some (32+UInt8.ofNat i.val,{ p with master := p.master.acknowledge i }) := by
  have hmask : ∀ i ≤ 1, bits 0xF8 i = false ∧ i ≠ 2 := by decide
  have hpending : p.wired.pending = some i := by
    refine first_eq_some.mpr ⟨?_,fun j hj => ?_⟩
    · simp [Pic.eligible,Pair.wired,h.master_mask,h.masterIdle,hmask i hi,hrequest,noLines]
    · simp [Pic.eligible,Pair.wired,hmask j (hj.le.trans hi),hfirst j hj]
  rw [Pair.acknowledge,hpending,Option.map_some,if_neg fun hcond => (hmask i hi).2 hcond.1,h.master]
  rfl

def lineOf : Event → Option ℕ
  | .timer => some 0
  | .keyboard => some 1
  | _ => none

/-- What the controllers wait for: the line of the handler that runs, until it has reported the end. -/
def awaited : Option (Event × LockMachine.Context Lock) → Lines
  | some (e,c) => if .release .pics ∈ c.code then fun i => decide (lineOf e = some i.val) else noLines
  | none => noLines

def deviceOf (i : Fin 8) : Event := if i.val = 0 then .timer else .keyboard

theorem line_only {e : Event} {i : Fin 8} (h : lineOf e = some i.val) :
    (fun j : Fin 8 => decide (lineOf e = some j.val)) = Function.update noLines i true := by
  funext j
  by_cases hj : j = i
  · simp [hj,h]
  · have hne : i.val ≠ j.val := fun heq => hj (Fin.ext heq.symm)
    simp [hj,h,hne,noLines]

theorem awaited_none {e : Event} {c : LockMachine.Context Lock} (h : lineOf e = none) :
    awaited (some (e,c)) = noLines := by
  simp only [awaited]
  split_ifs
  · funext j
    simp [h,noLines]
  · rfl

theorem handler_of_line {i : Fin 8} (hi : i ≤ 1) :
    (∃ h, Tables.handlerOf (32+UInt8.ofNat i.val).toNat = some h ∧ eventOf h = some (deviceOf i)) ∧
    lineOf (deviceOf i) = some i.val ∧ ackOf (deviceOf i) = .ok [(pic1Cmd,picEoi)] ∧
    .release .pics ∈ KernelLocks.system.handler (deviceOf i) := by
  have hcases : i = 0 ∨ i = 1 := by omega
  rcases hcases with rfl | rfl
  · exact ⟨⟨_,rfl,rfl⟩,rfl,rfl,by decide⟩
  · exact ⟨⟨_,rfl,rfl⟩,rfl,rfl,by decide⟩

/-- The controllers are as they were set up, and wait for the handler that runs. -/
structure Working (s : Machine) : Prop where
  master : s.pics.master.toConfig = masterConfig pics
  slave : s.pics.slave.toConfig = slaveConfig pics
  service : s.pics.master.inService = awaited s.locks.handler
  slaveIdle : s.pics.slave.inService = noLines

theorem Working.initialized {s : Machine} (h : Working s) (hidle : s.locks.handler = none) : Initialized pics s.pics :=
  ⟨h.master,h.slave,by rw [h.service,hidle]; rfl,h.slaveIdle⟩

/-- A device's handler reports the end once, and no other handler does. -/
theorem ack_count (e : Event) :
    (KernelLocks.system.handler e).count (.release .pics) = if (lineOf e).isSome then 1 else 0 := by
  cases e with
  | keyboard => rfl
  | timer => rfl
  | syscall number printable =>
    simp only [KernelLocks.system,KernelLocks.syscallDispatcher]
    split
    · cases printable <;> rfl
    · rfl
    · rfl
    · rfl
  | pageFault address code => rfl

theorem lineOf_eq_some {e : Event} (h : (lineOf e).isSome) :
    ∃ i : Fin 8, i ≤ 1 ∧ lineOf e = some i.val ∧ e = deviceOf i := by
  cases e with
  | timer => exact ⟨0,by decide,rfl,rfl⟩
  | keyboard => exact ⟨1,by decide,rfl,rfl⟩
  | syscall number printable => cases h
  | pageFault address code => cases h

theorem awaited_apart {l : Layout} {s t : LockedThreads.Machine} {a : LockedThreads.Act} (hapart : Apart (.run a))
    (hstep : LockedThreads.Step l s a t) : awaited t.locks.handler = awaited s.locks.handler := by
  cases a with
  | work => rw [hstep.2.2.2.1]
  | fetch code =>
    obtain ⟨system,locks⟩ := t
    cases hstep.1 with
    | fetch => rfl
  | exec =>
    obtain ⟨system,locks⟩ := t
    cases hstep.1 with
    | exec => rfl
  | kill pid => rw [hstep.2.2.2.2.1]
  | enter e =>
    obtain ⟨hidle,-,rfl⟩ := hstep.enter_inv
    cases e with
    | keyboard => exact hapart.elim
    | timer => exact hapart.elim
    | syscall number printable => rw [hidle,awaited_none rfl,awaited]
    | pageFault address code => rw [hidle,awaited_none rfl,awaited]
  | handle => exact hapart.elim
  | leave =>
    obtain ⟨e,c,system,hh,hdone,-,rfl⟩ := hstep.leave_inv
    simp [awaited,hh,hdone]

section

variable {l : Layout} {others : Handler → UInt32} {s t : Machine}

theorem interrupt_inv (h : Working s) {vector : UInt8} (hstep : Step l others s (.interrupt vector) t) :
    ∃ i ≤ 1, s.locks.handler = none ∧ vector = 32+UInt8.ofNat i.val ∧
      t.pics = { s.pics with master := s.pics.master.acknowledge i } ∧
      Exceptions.Step l others s.kernel (.run (.enter (deviceOf i))) t.kernel := by
  obtain ⟨handler,e,hack,hhandler,hevent,hkernel⟩ := hstep
  have hidle : s.locks.handler = none := hkernel.2.1.enter_inv.1
  obtain ⟨i,hi,-,rfl,hpics⟩ := (h.initialized hidle).acknowledge hack
  obtain ⟨⟨handler',hhandler',hevent'⟩,-⟩ := handler_of_line hi
  obtain rfl := Option.some.inj (hhandler.symm.trans hhandler')
  obtain rfl := Option.some.inj (hevent.symm.trans hevent')
  exact ⟨i,hi,hidle,rfl,hpics,hkernel⟩

theorem handle_inv (hlinked : LockedThreads.Linked l s.kernel.threads) (hstep : Step l others s .handle t) :
    ∃ e c instr rest, s.locks.handler = some (e,c) ∧ c.code = instr::rest ∧
      t.locks.handler = some (e,c.next instr rest) ∧
      (instr ≠ .release .pics ∧ t.pics = s.pics ∨ instr = .release .pics ∧ .release .pics ∉ rest ∧
        ∃ i : Fin 8, lineOf e = some i.val ∧ t.pics = s.pics.outbs [(pic1Cmd,picEoi)]) := by
  obtain ⟨⟨-,hrun,-⟩,hacked⟩ := hstep
  obtain ⟨e,c,instr,rest,owner,hh,hcode,hthreads⟩ := hrun.handle_inv
  have hlocks : s.locks.handler = some (e,c) := hh
  simp only [acked,hlocks,hcode,List.head?_cons,Option.some.injEq] at hacked
  refine ⟨e,c,instr,rest,hh,hcode,by rw [Machine.locks,hthreads],?_⟩
  by_cases hinstr : instr = .release .pics
  · have hcount := (LockMachine.handler_suffix hlinked.locks _ hh).sublist.count_le (.release Lock.pics)
    simp only [hcode,hinstr,List.count_cons_self,ack_count] at hcount
    have hline : (lineOf e).isSome := by
      by_contra hnone
      rw [if_neg hnone] at hcount
      omega
    obtain ⟨i,hi,hi',rfl⟩ := lineOf_eq_some hline
    rw [if_pos hinstr,(handler_of_line hi).2.2.1] at hacked
    refine Or.inr ⟨hinstr,fun hmem => ?_,i,hi',(Except.ok.inj hacked).symm⟩
    have := List.count_pos_iff.mpr hmem
    rw [if_pos hline] at hcount
    omega
  · rw [if_neg hinstr] at hacked
    exact Or.inl ⟨hinstr,(Except.ok.inj hacked).symm⟩

theorem Working.keep (h : Working s) (hpics : t.pics = s.pics)
    (hservice : awaited t.locks.handler = awaited s.locks.handler) : Working t :=
  ⟨hpics ▸ h.master,hpics ▸ h.slave,by rw [hpics,hservice,h.service],hpics ▸ h.slaveIdle⟩

theorem Working.request (h : Working s) (line : Fin 16) : Working { s with pics := s.pics.request line } := by
  have halike := Pair.Alike.request (p := s.pics) (q := s.pics) ⟨⟨rfl,rfl⟩,rfl,rfl⟩ line
  exact ⟨halike.1.1.trans h.master,halike.2.1.trans h.slave,halike.1.2.trans h.service,halike.2.2.trans h.slaveIdle⟩

theorem Working.interrupt (h : Working s) {vector : UInt8} (hstep : Step l others s (.interrupt vector) t) :
    Working t := by
  obtain ⟨i,hi,hidle,-,hpics,hkernel⟩ := interrupt_inv h hstep
  have hinit := h.initialized hidle
  obtain ⟨-,hline,-,hmem⟩ := handler_of_line hi
  refine ⟨by rw [hpics]; exact h.master,by rw [hpics]; exact h.slave,?_,by rw [hpics]; exact h.slaveIdle⟩
  rw [hpics,Machine.locks,hkernel.2.1.enter_inv.2.2]
  simp [awaited,hmem,line_only hline,Pic.acknowledge,hinit.masterIdle,(hinit.idle pics_legal).masterManual]

theorem Working.handle (h : Working s) (hlinked : LockedThreads.Linked l s.kernel.threads)
    (hstep : Step l others s .handle t) : Working t := by
  obtain ⟨e,c,instr,rest,hh,hcode,hh',hcases⟩ := handle_inv hlinked hstep
  rcases hcases with ⟨hinstr,hpics⟩ | ⟨rfl,hrest,i,hline,hpics⟩
  · refine h.keep hpics ?_
    rw [hh,hh']
    refine if_congr ?_ rfl rfl
    rw [hcode,List.mem_cons,or_iff_right (Ne.symm hinstr)]
    rfl
  · have hservice : s.pics.master.inService = Function.update noLines i true := by
      rw [h.service,hh]
      simp [awaited,hcode,line_only hline]
    have heoi : t.pics = ⟨s.pics.master.command 0x20,s.pics.slave⟩ := hpics
    rw [Pic.command_eoi hservice] at heoi
    refine ⟨by rw [heoi]; exact h.master,by rw [heoi]; exact h.slave,?_,by rw [heoi]; exact h.slaveIdle⟩
    rw [heoi,hh']
    simp [awaited,LockMachine.Context.next,hrest]

theorem awaited_other {a : Exceptions.Act} (hapart : Apart a) (hstep : Exceptions.Step l others s.kernel a t.kernel) :
    awaited t.locks.handler = awaited s.locks.handler := by
  cases a with
  | run a => exact awaited_apart hapart hstep.2.1
  | exception vector source code =>
    obtain ⟨-,headline,-,hlocks,-⟩ := hstep.exception_inv
    rw [Machine.locks,hlocks,Machine.locks]
  | statement => rw [Machine.locks,hstep.statement_locks,Machine.locks]

theorem Step.kernel {a : Act} (hstep : Step l others s a t) :
    t.kernel = s.kernel ∨ ∃ b, Exceptions.Step l others s.kernel b t.kernel := by
  cases a with
  | request line =>
    obtain rfl := hstep
    exact Or.inl rfl
  | interrupt vector =>
    obtain ⟨handler,e,-,-,-,hkernel⟩ := hstep
    exact Or.inr ⟨_,hkernel⟩
  | handle => exact Or.inr ⟨_,hstep.1⟩
  | out port value => exact Or.inr ⟨_,hstep.2.2.1⟩
  | other a => exact Or.inr ⟨_,hstep.2.1⟩

def Sound (l : Layout) (s : Machine) : Prop := Exceptions.Sound l s.kernel ∧ Working s

theorem outb_elsewhere (p : Pair) {port : UInt16} (h : port ∉ [pic1Cmd,pic1Data,pic2Cmd,pic2Data]) (value : UInt8) :
    p.outb port value = p := by
  simp only [List.mem_cons,List.not_mem_nil,or_false,not_or,pic1Cmd,pic1Data,pic2Cmd,pic2Data] at h
  simp [Pair.outb,h]

theorem Sound.step {a : Act} (h : Sound l s) (hstep : Quiet l others s a t) : Sound l t := by
  obtain ⟨hkernel,hworking⟩ := h
  obtain ⟨hstep,hquiet⟩ := hstep
  constructor
  · rcases hstep.kernel with hsame | ⟨b,hb⟩
    · rwa [hsame]
    · exact hkernel.step hb
  · cases a with
    | request line =>
      obtain rfl := hstep
      exact hworking.request line
    | interrupt vector => exact hworking.interrupt hstep
    | handle => exact hworking.handle (hkernel.1 hstep.1.1) hstep
    | out port value =>
      exact hworking.keep (hstep.2.2.2.trans (outb_elsewhere _ (hquiet _ _ rfl) value))
        (awaited_other (a := .run .work) trivial hstep.2.2.1)
    | other a => exact hworking.keep hstep.2.2 (awaited_other hstep.1 hstep.2.1)

theorem Reached.sound (h : Reached l others s) : Sound l s := by
  obtain ⟨boot,⟨⟨p,signals,houts,hpics⟩,hstart,hnone⟩,hrun⟩ := h
  refine hrun.invariant (I := Sound l) (fun _ _ _ hs hstep => hs.step hstep) ⟨⟨fun _ => hstart.linked,?_⟩,?_⟩
  · intro body hbody
    simp [hnone] at hbody
  · have hinit : Initialized pics boot.pics := hpics ▸ initialize_sets_up pics p houts
    have hlocks : boot.locks.handler = none := by rw [Machine.locks,hstart.1]; rfl
    exact ⟨hinit.master,hinit.slave,by rw [hlocks]; exact hinit.masterIdle,hinit.slaveIdle⟩

/-- The interrupt is taken, its handler runs and returns. -/
def Delivers (l : Layout) (others : Handler → UInt32) (s : Machine) (i : Fin 8) (t : Machine) : Prop :=
  ∃ u v, Step l others s (.interrupt (32+UInt8.ofNat i.val)) u ∧ Runs.Repeats (Step l others) .handle u v ∧
    Step l others v (.other (.run .leave)) t

theorem acked_ok (s : Machine) : ∃ q, acked s = .ok q ∧ q.master.requests = s.pics.master.requests := by
  have hwrites (e : Event) : ∃ writes, ackOf e = .ok writes ∧
      (s.pics.outbs writes).master.requests = s.pics.master.requests := by
    cases e with
    | timer => exact ⟨_,rfl,rfl⟩
    | keyboard => exact ⟨_,rfl,rfl⟩
    | syscall number printable => exact ⟨_,rfl,rfl⟩
    | pageFault address code => exact ⟨_,rfl,rfl⟩
  unfold acked
  split
  · split_ifs
    · obtain ⟨writes,hok,hsame⟩ := hwrites _
      exact ⟨_,by rw [hok]; rfl,hsame⟩
    · exact ⟨_,rfl,rfl⟩
  · exact ⟨_,rfl,rfl⟩

variable (others) in
theorem handles_lift {x y : LockedThreads.Machine} (h : Runs.Repeats (LockedThreads.Step l) .handle x y) (p : Pair) :
    ∃ q, Runs.Repeats (Step l others) .handle ⟨p,x,none⟩ ⟨q,y,none⟩ ∧ q.master.requests = p.master.requests := by
  induction h with
  | refl => exact ⟨p,.refl,rfl⟩
  | tail _ hlast ih =>
    obtain ⟨q,hreach,hrequests⟩ := ih
    obtain ⟨q',hacked,hrequests'⟩ := acked_ok ⟨q,_,none⟩
    exact ⟨q',hreach.tail ⟨⟨rfl,hlast,rfl⟩,hacked⟩,hrequests'.trans hrequests⟩

theorem vector_inj : ∀ i j : Fin 8, 32+UInt8.ofNat i.val = 32+UInt8.ofNat j.val → i = j := by decide

theorem raised_device {system : Contexts.System} (hflag : LockedThreads.Enabled system) (i : Fin 8) :
    LockedThreads.Raised system (deviceOf i) := by
  unfold deviceOf
  split_ifs <;> exact hflag

namespace Sound

variable {i : Fin 8}

/-- The request that comes first among those that are made is taken whenever the flag is up. -/
theorem interrupt (h : Sound l s) (hidle : s.Idle) (hflag : LockedThreads.Enabled s.system) (hi : i ≤ 1)
    (hrequest : s.pics.master.requests i = true) (hfirst : ∀ j < i, s.pics.master.requests j = false) :
    ∃ t, Step l others s (.interrupt (32+UInt8.ofNat i.val)) t := by
  obtain ⟨⟨handler,hhandler,hevent⟩,-⟩ := handler_of_line hi
  have hack := (h.2.initialized hidle.2).acknowledge_first hi hrequest hfirst
  obtain ⟨t,ht⟩ := (h.1.1 hidle.1).enter hidle.2 (raised_device hflag i)
  exact ⟨⟨_,t,none⟩,handler,_,hack,hhandler,hevent,hidle.1,ht,rfl⟩

theorem delivers (h : Sound l s) (hidle : s.Idle) (husable : s.kernel.threads.segments.Usable)
    (hflag : LockedThreads.Enabled s.system) (hi : i ≤ 1)
    (hrequest : s.pics.master.requests i = true) (hfirst : ∀ j < i, s.pics.master.requests j = false)
    (hclear : ¬ Obstructed s.locks (deviceOf i)) : ∃ t, Delivers l others s i t ∧ t.Idle ∧
      Contexts.Step l s.system (LockedThreads.eventOf (deviceOf i)) t.system ∧
      t.pics.master.requests = Function.update s.pics.master.requests i false := by
  obtain ⟨⟨handler,hhandler,hevent⟩,-⟩ := handler_of_line hi
  have hack := (h.2.initialized hidle.2).acknowledge_first hi hrequest hfirst
  obtain ⟨t,hserves⟩ := (h.1.1 hidle.1).serves hidle.2 husable (raised_device hflag i) hclear
  obtain ⟨hserved,hdone⟩ := hserves.effect
  obtain ⟨u,v,hu,hhandle,hleave⟩ := hserves
  obtain ⟨q,hhandles,hrequests⟩ := handles_lift others hhandle { s.pics with master := s.pics.master.acknowledge i }
  exact ⟨⟨q,t,none⟩,⟨_,_,⟨handler,_,hack,hhandler,hevent,hidle.1,hu,rfl⟩,hhandles,trivial,⟨rfl,hleave,rfl⟩,rfl⟩,
    ⟨rfl,hdone⟩,hserved,hrequests⟩

/-- A handler that spins on a lock stays there whatever the devices do. -/
theorem stuck (h : Sound l s) (hobstructed : Obstructed s.locks (deviceOf i)) {u : Machine}
    (hstep : Step l others s (.interrupt (32+UInt8.ofNat i.val)) t) (hrun : Runs.Reachable (Step l others) t u) :
    u.locks.handler ≠ none ∧ u.system = s.system := by
  obtain ⟨j,hj,hidle,hvector,-,hnone,henter,hnone'⟩ := interrupt_inv h.2 hstep
  obtain rfl := vector_inj i j hvector
  have hlinked := h.1.1 hnone
  have hend : u.kernel.handler = none ∧ Runs.Reachable (LockedThreads.Step l) t.kernel.threads u.kernel.threads := by
    have hentered : Runs.Reachable (LockedThreads.Step l) t.kernel.threads t.kernel.threads := .refl
    refine hrun.invariant (I := fun u => u.kernel.handler = none ∧
      Runs.Reachable (LockedThreads.Step l) t.kernel.threads u.kernel.threads) ?_ ⟨hnone',hentered⟩
    rintro x a y ⟨hx,hreach⟩ hxy
    rcases hxy.kernel with hsame | ⟨b,hb⟩
    · rw [hsame]
      exact ⟨hx,hreach⟩
    · cases b with
      | run b => exact ⟨hb.2.2,hreach.tail ⟨b,hb.2.1⟩⟩
      | exception vector source code => exact absurd hb.2.1 (hlinked.stuck hobstructed henter hreach).1
      | statement => simp [Exceptions.Step,hx] at hb
  exact hlinked.stuck hobstructed henter hend.2

end Sound

/-- In every state that is reached while programs leave the controllers alone, whatever the firmware has
left in them and whenever requests came in: outside of handlers nothing is in service and only the
timer and the keyboard are passed on; the first of their requests is taken as soon as interrupts
are on, and served to the end, unless it is a key in the pop block, whose handler never returns. -/
theorem interrupts_delivered (h : Reached l others s) :
    (s.kernel.handler = none → Contexts.Reached l s.system) ∧
    (s.locks.handler = none → s.pics.master.inService = noLines ∧ s.pics.slave.inService = noLines ∧
      ∀ v q, s.pics.acknowledge = some (v,q) → v = 32 ∨ v = 33) ∧
    (s.Idle → LockedThreads.Enabled s.system → ∀ i ≤ 1, s.pics.master.requests i = true →
      (∀ j < i, s.pics.master.requests j = false) →
      (∃ t, Step l others s (.interrupt (32+UInt8.ofNat i.val)) t) ∧
      (s.kernel.threads.segments.Usable → ¬ Obstructed s.locks (deviceOf i) →
        ∃ t, Delivers l others s i t ∧ t.Idle ∧
        Contexts.Step l s.system (LockedThreads.eventOf (deviceOf i)) t.system ∧
        t.pics.master.requests = Function.update s.pics.master.requests i false) ∧
      (Obstructed s.locks (deviceOf i) → ∀ t u, Step l others s (.interrupt (32+UInt8.ofNat i.val)) t →
        Runs.Reachable (Step l others) t u → u.locks.handler ≠ none ∧ u.system = s.system)) := by
  have hsound := h.sound
  refine ⟨fun hnone => (hsound.1.1 hnone).system,fun hidle => ?_,fun hidle hflag i hi hrequest hfirst => ?_⟩
  · have hinit := hsound.2.initialized hidle
    refine ⟨hinit.masterIdle,hinit.slaveIdle,fun v q hack => ?_⟩
    obtain ⟨i,hi,-,rfl,-⟩ := hinit.acknowledge hack
    have hcases : i = 0 ∨ i = 1 := by omega
    rcases hcases with rfl | rfl
    · exact Or.inl rfl
    · exact Or.inr rfl
  · exact ⟨hsound.interrupt hidle hflag hi hrequest hfirst,
      fun husable => hsound.delivers hidle husable hflag hi hrequest hfirst,
      fun hobstructed t u hstep hrun => hsound.stuck hobstructed hstep hrun⟩

end

/-- Controllers that were left in the middle of a set-up and of an interrupt. -/
def leftover : Pair where
  master := ⟨⟨.icw3,false,true,8,0,true,false,bits 0xB8⟩,noLines,bits 0x01⟩
  slave := ⟨⟨.icw4,false,true,0x70,0,true,false,bits 0x8E⟩,noLines,noLines⟩

def sampleMachine (line : Fin 16) (t : Contexts.System) : Machine where
  pics := (leftover.outbs pics.initializeWrites).request line
  kernel := ⟨⟨t,KernelLocks.start,.user⟩,none⟩

theorem sampleMachine_reached {t : Contexts.System}
    (ht : LockedThreads.Start Contexts.sampleLayout ⟨t,KernelLocks.start,.user⟩) :
    Reached Contexts.sampleLayout (fun _ => 0x107000) (sampleMachine 1 t) := by
  have hboot : Boot Contexts.sampleLayout ⟨leftover.outbs pics.initializeWrites,⟨t,KernelLocks.start,.user⟩,none⟩ :=
    ⟨⟨leftover,pics.initializeWrites.map fun w => .out w.1 w.2,rfl,rfl⟩,ht,rfl⟩
  exact ⟨_,hboot,.single ⟨.request 1,rfl,fun port value h => by cases h⟩⟩

theorem interrupts_delivered_key : ∃ s t, Reached Contexts.sampleLayout (fun _ => 0x107000) s ∧
    LockedThreads.Enabled s.system ∧ Delivers Contexts.sampleLayout (fun _ => 0x107000) s 1 t ∧
    Contexts.Step Contexts.sampleLayout s.system .keyboard t.system := by
  obtain ⟨u,hstart,hflag,-⟩ := LockedThreads.sampleStart_machine
  have hreached := sampleMachine_reached hstart
  have hfirst : ∀ j < 1, ((leftover.outbs pics.initializeWrites).request 1).master.requests j = false := by decide
  have hclear : ¬ Obstructed KernelLocks.start (deviceOf 1) := by
    rintro (⟨-,hpop⟩ | ⟨heq,-⟩)
    · cases hpop
    · cases heq
  obtain ⟨-,hserve,-⟩ := (interrupts_delivered hreached).2.2 ⟨rfl,rfl⟩ hflag 1 le_rfl rfl hfirst
  obtain ⟨t,ht,-,hkey,-⟩ := hserve LockedThreads.user_usable hclear
  exact ⟨_,t,hreached,hflag,ht,hkey⟩

/-- No request of the timer or the keyboard gets lost on a run of programs that leave the controllers
alone: it stays until an interrupt with its vector has been taken. -/
theorem requests_stay {l : Layout} {others : Handler → UInt32} {s : Machine} (h : Reached l others s)
    {path : List (Act × Machine)} (hpath : Runs.Along (Quiet l others) s path) :
    Runs.Along (fun s a t => ∀ i ≤ 1, s.pics.master.requests i = true →
      a = .interrupt (32+UInt8.ofNat i.val) ∨ t.pics.master.requests i = true) s path := by
  refine hpath.of_invariant (I := Sound l) (fun _ _ _ hs hstep => hs.step hstep) ?_ h.sound
  rintro s a t hs ⟨hstep,hquiet⟩ i hi hrequest
  cases a with
  | request line =>
    obtain rfl := hstep
    exact Or.inr (Pair.requests_request hrequest line)
  | interrupt vector =>
    obtain ⟨j,-,-,rfl,hpics,-⟩ := interrupt_inv hs.2 hstep
    by_cases hji : j = i
    · exact Or.inl (by rw [hji])
    · right
      rw [hpics]
      simpa [Pic.acknowledge,Function.update_of_ne (Ne.symm hji)] using hrequest
  | handle =>
    obtain ⟨q,hq,hrequests⟩ := acked_ok s
    right
    rw [← Except.ok.inj (hq.symm.trans hstep.2),hrequests]
    exact hrequest
  | out port value =>
    right
    rw [hstep.2.2.2,outb_elsewhere _ (hquiet _ _ rfl)]
    exact hrequest
  | other a =>
    right
    rw [hstep.2.2]
    exact hrequest

theorem requests_stay_key : ∃ s t, Reached Contexts.sampleLayout (fun _ => 0x107000) s ∧
    Runs.Along (Quiet Contexts.sampleLayout fun _ => 0x107000) s [(.request 0,t)] ∧
    s.pics.master.requests 1 = true ∧ t.pics.master.requests 1 = true := by
  obtain ⟨u,hstart,-⟩ := LockedThreads.sampleStart_machine
  have hreached := sampleMachine_reached hstart
  have hpath : Runs.Along (Quiet Contexts.sampleLayout fun _ => 0x107000) (sampleMachine 1 u)
      [(.request 0,{ sampleMachine 1 u with pics := (sampleMachine 1 u).pics.request 0 })] :=
    ⟨⟨rfl,fun port value h => by cases h⟩,trivial⟩
  exact ⟨_,_,hreached,hpath,rfl,((requests_stay hreached hpath).1 1 le_rfl rfl).resolve_left (by simp)⟩

end InterruptController
end EnosKernel
