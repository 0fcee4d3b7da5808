import EnosKernel.ContextRuns
import EnosKernel.UserProgram

/-! The machine with the installed program as its initial thread: the system calls that are made
are those of the program, in its order, however interrupts fall and other threads run in between. -/
namespace EnosKernel
namespace UserProgram

open ByteMemory Ia32 Contexts

def behind (s : System) (i : UserInstr) : System :=
  { s with cpu := { s.cpu with toContext := i.after s.cpu.toContext } }

/-- Ring 3 executes what it fetches: a system call is an `int 0x80`, and a page fault means that the
instruction cannot be fetched, since none of them uses memory.  Nothing writes to the program. -/
def Step (l : Layout) (s : System) (e : Event) (t : System) : Prop :=
  AgreeOn programArea s.cpu.memory t.cpu.memory ∧
  match e with
  | .work => if ring s.cpu.cs = 0 then Contexts.Step l s .work t
    else ∃ i, fetch s.cpu.memory s.cpu.eip = some i ∧ (∀ vector, i ≠ .int vector) ∧ t = behind s i
  | .syscall => fetch s.cpu.memory s.cpu.eip = some (.int 0x80) ∧ Contexts.Step l (behind s (.int 0x80)) .syscall t
  | .pageFault address code => Contexts.Step l s (.pageFault address code) t ∧
    ∃ i, fetch s.cpu.memory s.cpu.eip = some i ∧ address ∈ span s.cpu.eip i.bytes.length ∧
      ¬ Paging.UserAccessible l.place address.toNat
  | e => Contexts.Step l s e t

structure Call where
  number : UInt32
  arg1 : UInt32
  arg2 : UInt32
  deriving DecidableEq, Repr

def callOf (s : System) : Call := ⟨s.cpu.regs .eax,s.cpu.regs .ebx,s.cpu.regs .ecx⟩

def callsOf : System → List (Event × System) → List Call
  | _, [] => []
  | s, (e,t)::path => (if e = .syscall then [callOf s] else [])++callsOf t path

def printCall : Call := ⟨1,userMsgAddr,50⟩
def sleepCall : Call := ⟨3,20,50⟩

/-- The message has appeared on the screen and on the serial line. -/
def Prints (s t : System) : Prop :=
  t.kernel.statics = (s.kernel.statics.println
    "[Ring 3] Ring 3 online via isolated user pages + sys_sleep.".toList).serialPrintln
    "[Syscall SYS_PRINT] Ring 3 online via isolated user pages + sys_sleep.".toList

/-- Where the program is, and what it has loaded into registers by then. -/
def AtPoint (printed : Bool) (x : Context) : Prop :=
  ring x.cs = 3 ∧ ∃ k i, instructionAt k = some i ∧ x.eip = userCodeAddr+UInt32.ofNat k ∧
    if printed then 17 ≤ k ∧ x.regs .ecx = 50 ∧ (22 ≤ k → k < 29 → x.regs .eax = 3) ∧ (27 ≤ k → x.regs .ebx = 20)
    else k ≤ 15 ∧ (5 ≤ k → x.regs .eax = 1) ∧ (10 ≤ k → x.regs .ebx = userMsgAddr) ∧ (15 ≤ k → x.regs .ecx = 50)

/-- The initial thread, if it is still there, is at a point of the program. -/
structure Follows (l : Layout) (m : Memory) (printed : Bool) (s : System) : Prop where
  reached : Reached l s
  code : AgreeOn programArea (installed m) s.cpu.memory
  point : ∀ x, (s.threads l).context 1 = some x → AtPoint printed x

theorem AtPoint.after {printed : Bool} {x : Context} (h : AtPoint printed x) {m m' : Memory}
    (hcode : AgreeOn programArea (installed m) m') {i : UserInstr} (hfetch : fetch m' x.eip = some i)
    (hint : ∀ vector, i ≠ .int vector) : AtPoint printed (i.after x) := by
  obtain ⟨hring,k,j,hj,heip,hregs⟩ := h
  rw [heip,fetch_program hcode hj] at hfetch
  obtain rfl := Option.some.inj hfetch
  have hring' : ring (j.after x).cs = 3 := by rw [j.after_cs]; exact hring
  unfold instructionAt at hj
  split at hj <;> cases hj <;> cases printed <;> simp at hregs hint
  · exact ⟨hring',5,_,rfl,by rw [UserInstr.after,heip]; rfl,by simp [UserInstr.after]⟩
  · exact ⟨hring',10,_,rfl,by rw [UserInstr.after,heip]; rfl,by simp [UserInstr.after,hregs]⟩
  · exact ⟨hring',15,_,rfl,by rw [UserInstr.after,heip]; rfl,by simp [UserInstr.after,hregs]⟩
  · exact ⟨hring',22,_,rfl,by rw [UserInstr.after,heip]; rfl,by simp [UserInstr.after,hregs]⟩
  · exact ⟨hring',27,_,rfl,by rw [UserInstr.after,heip]; rfl,by simp [UserInstr.after,hregs]⟩
  · exact ⟨hring',17,_,rfl,by rw [UserInstr.after,heip]; rfl,by simp [UserInstr.after,hregs]⟩

/-- A call is the one that the program makes there, and it returns to the loop with any answer. -/
theorem AtPoint.call {printed : Bool} {x : Context} (h : AtPoint printed x) {m m' : Memory}
    (hcode : AgreeOn programArea (installed m) m') (hfetch : fetch m' x.eip = some (.int 0x80)) :
    (⟨x.regs .eax,x.regs .ebx,x.regs .ecx⟩ : Call) = (if printed then sleepCall else printCall) ∧
    ∀ answer, AtPoint true { (UserInstr.int 0x80).after x with regs := Function.update x.regs .eax answer } := by
  obtain ⟨hring,k,j,hj,heip,hregs⟩ := h
  rw [heip,fetch_program hcode hj] at hfetch
  obtain rfl := Option.some.inj hfetch
  unfold instructionAt at hj
  split at hj <;> cases hj <;> cases printed <;> simp at hregs
  · exact ⟨by simp [hregs,printCall],
      fun answer => ⟨hring,17,_,rfl,by rw [UserInstr.after,heip]; rfl,by simp [hregs]⟩⟩
  · exact ⟨by simp [hregs,sleepCall],
      fun answer => ⟨hring,29,_,rfl,by rw [UserInstr.after,heip]; rfl,by simp [hregs]⟩⟩

theorem AtPoint.fetchable {printed : Bool} {x : Context} (h : AtPoint printed x) (place : Paging.Placement)
    (i : UserInstr) {address : UInt32} (haddress : address ∈ span x.eip i.bytes.length) :
    Paging.UserAccessible place address.toNat := by
  obtain ⟨-,k,j,hj,heip,-⟩ := h
  have hk := instructionAt_le hj
  have hlength := i.bytes_length_le
  have hstart : Paging.userSpaceStart.toNat = 0x400000 := rfl
  have hend : Paging.userSpaceEnd.toNat = 0x800000 := rfl
  obtain ⟨hge,hlt⟩ := haddress
  rw [heip,codeAddr_toNat (by omega)] at hge hlt
  exact (Paging.userAccessible_iff place).mpr ⟨by omega,by omega⟩

namespace Follows

variable {l : Layout} {m : Memory} {printed : Bool} {s t : System}

theorem running_ne (h : Follows l m printed s) (hring : ring s.cpu.cs = 0) : s.kernel.running ≠ 1 := by
  intro hrunning
  have hpoint := (h.point _ (System.contextOf_running hrunning.symm)).1
  exact absurd (hpoint.symm.trans hring) (by decide)

theorem at_point (h : Follows l m printed s) (hring : ring s.cpu.cs ≠ 0) : AtPoint printed s.cpu.toContext :=
  h.point _ (System.contextOf_running (h.reached.good.user_runs hring).1.symm)

theorem keep (h : Follows l m printed s) (hreached : Reached l t)
    (hcode : AgreeOn programArea s.cpu.memory t.cpu.memory)
    (hthread : ∀ x, (t.threads l).context 1 = some x → (s.threads l).context 1 = some x) : Follows l m printed t :=
  ⟨hreached,h.code.trans hcode,fun x hx => h.point x (hthread x hx)⟩

theorem others (h : Follows l m printed s) {e : Event} (hstep : Contexts.Step l s e t)
    (hcode : AgreeOn programArea s.cpu.memory t.cpu.memory)
    (he : e = .timer ∨ e = .keyboard ∨ ring s.cpu.cs = 0) : Follows l m printed t := by
  have hgood := h.reached.good
  refine h.keep (h.reached.step hstep) hcode fun x hx => ?_
  have heffect := (hgood.step hstep).2
  cases e with
  | work =>
    have hrunning := h.running_ne (by simpa using he)
    rw [show t.threads l = _ from heffect] at hx
    rwa [Threads.set_context_of_ne hrunning.symm] at hx
  | timer =>
    rw [show t.threads l = _ from heffect] at hx
    unfold Threads.switch at hx
    split_ifs at hx
    · exact Threads.of_stop hx
    · exact hx
  | keyboard => rwa [show t.threads l = _ from heffect] at hx
  | syscall => exact absurd (by simpa using he) hstep.1
  | pageFault address code => exact absurd (by simpa using he) hstep.1
  | kill pid =>
    have hrunning := h.running_ne (by simpa using he)
    rcases heffect with hset | ⟨-,hstop⟩
    · rw [hset] at hx
      rwa [Threads.set_context_of_ne hrunning.symm] at hx
    · rw [hstop] at hx
      have hset := Threads.of_stop hx
      rwa [Threads.set_context_of_ne hrunning.symm] at hset
  | registerNamedTask name entryPoint stack =>
    have hrunning := h.running_ne (by simpa using he)
    have hnext := hgood.sched.next_id
    rw [show t.threads l = _ from heffect] at hx
    rwa [Threads.start_context_of_ne (by omega),Threads.set_context_of_ne hrunning.symm] at hx
  | switchToUserMode => exact absurd hstep.2.1 (h.running_ne (by simpa using he))

theorem behind_step (h : Follows l m printed s) (hring : ring s.cpu.cs ≠ 0) (i : UserInstr) :
    Contexts.Step l s .work (behind s i) := by
  refine ⟨rfl,rfl,?_⟩
  rw [System.Works,if_neg hring]
  exact ⟨by rw [show (behind s i).cpu.cs = _ from i.after_cs _]; exact (h.at_point hring).1,.refl⟩

theorem instruction (h : Follows l m printed s) (hring : ring s.cpu.cs ≠ 0) {i : UserInstr}
    (hfetch : fetch s.cpu.memory s.cpu.eip = some i) (hint : ∀ vector, i ≠ .int vector) :
    Follows l m printed (behind s i) := by
  have hwork := h.behind_step hring i
  have hmain := (h.reached.good.user_runs hring).1
  refine ⟨h.reached.step hwork,h.code,fun x hx => ?_⟩
  rw [show (behind s i).threads l = _ from (h.reached.good.step hwork).2,← hmain] at hx
  rw [← Option.some.inj (Threads.set_context_self.symm.trans hx)]
  exact (h.at_point hring).after h.code hfetch hint

theorem syscall (h : Follows l m printed s) (hfetch : fetch s.cpu.memory s.cpu.eip = some (.int 0x80))
    (hstep : Contexts.Step l (behind s (.int 0x80)) .syscall t)
    (hcode : AgreeOn programArea s.cpu.memory t.cpu.memory) :
    Follows l m true t ∧ callOf s = (if printed then sleepCall else printCall) ∧
    (callOf s = printCall → Prints s t) := by
  have hring : ring s.cpu.cs ≠ 0 := hstep.1
  have hreached := h.reached.step (h.behind_step hring (.int 0x80))
  have hmain := (h.reached.good.user_runs hring).1
  obtain ⟨hcall,hpoint⟩ := (h.at_point hring).call h.code hfetch
  obtain ⟨esp,hthreads,hstatics⟩ := (hreached.good.step hstep).2
  refine ⟨⟨hreached.step hstep,h.code.trans hcode,fun x hx => ?_⟩,hcall,fun hprint => ?_⟩
  · rw [hthreads,← hmain] at hx
    rw [← Option.some.inj (Threads.set_context_self.symm.trans hx)]
    exact hpoint _
  · obtain ⟨heax,hebx,hecx⟩ := Call.mk.inj hprint
    have hmessage := print_message h.code s.kernel.statics (s.cpu.regs .edx) (s.cpu.regs .esi) (s.cpu.regs .edi) esp
    rw [← heax,← hebx,← hecx] at hmessage
    exact hstatics.trans (congrArg Prod.snd hmessage)

/-- Every step of the machine keeps the program to its points; the calls are the program's. -/
theorem step (h : Follows l m printed s) {e : Event} (hstep : Step l s e t) :
    Follows l m (printed || e = .syscall) t ∧
    (e = .syscall → callOf s = (if printed then sleepCall else printCall) ∧ (callOf s = printCall → Prints s t)) ∧
    ∀ address code, e ≠ .pageFault address code := by
  obtain ⟨hcode,hstep⟩ := hstep
  cases e with
  | work =>
    simp only [reduceCtorEq,decide_false,Bool.or_false]
    refine ⟨?_,by simp,by simp⟩
    dsimp only at hstep
    split_ifs at hstep with hring
    · exact h.others hstep hcode (by simp [hring])
    · obtain ⟨i,hfetch,hint,rfl⟩ := hstep
      exact h.instruction hring hfetch hint
  | syscall =>
    obtain ⟨hfollows,hcall⟩ := h.syscall hstep.1 hstep.2 hcode
    exact ⟨by simpa using hfollows,fun _ => hcall,by simp⟩
  | pageFault address code =>
    obtain ⟨hfault,i,-,haddress,hnot⟩ := hstep
    exact absurd ((h.at_point hfault.1).fetchable l.place i haddress) hnot
  | timer => exact ⟨by simpa using h.others hstep hcode (by simp),by simp,by simp⟩
  | keyboard => exact ⟨by simpa using h.others hstep hcode (by simp),by simp,by simp⟩
  | kill pid =>
    exact ⟨by simpa using h.others hstep hcode (by simp [show ring s.cpu.cs = 0 from hstep.1]),by simp,by simp⟩
  | registerNamedTask name entryPoint stack =>
    exact ⟨by simpa using h.others hstep hcode (by simp [show ring s.cpu.cs = 0 from hstep.2.1]),by simp,by simp⟩
  | switchToUserMode =>
    exact ⟨by simpa using h.others hstep hcode (by simp [show ring s.cpu.cs = 0 from hstep.1]),by simp,by simp⟩

theorem calls (h : Follows l m printed s) {path : List (Event × System)} (hpath : Runs.Along (Step l) s path) :
    callsOf s path <+: (if printed then [] else [printCall])++List.replicate path.length sleepCall := by
  induction path generalizing s printed with
  | nil => exact List.nil_prefix
  | cons first path ih =>
    obtain ⟨e,t⟩ := first
    obtain ⟨hnext,hcall,-⟩ := h.step hpath.1
    have hrest := ih hnext hpath.2
    have hmore : List.replicate path.length sleepCall <+: List.replicate (path.length+1) sleepCall := by
      rw [List.replicate_succ']
      exact List.prefix_append _ _
    by_cases he : e = .syscall
    · rw [callsOf,if_pos he,(hcall he).1,List.length_cons]
      simp only [he,decide_true,Bool.or_true,if_true,List.nil_append] at hrest
      cases printed with
      | false => exact List.cons_prefix_cons.mpr ⟨rfl,hrest.trans hmore⟩
      | true => exact List.cons_prefix_cons.mpr ⟨rfl,hrest⟩
    · rw [callsOf,if_neg he,List.length_cons]
      simp only [he,decide_false,Bool.or_false] at hrest
      exact hrest.trans ((List.prefix_append_right_inj _).mpr hmore)

theorem start {entry : UInt32} {m' : Memory} (hinstall : installUserProgram m = .ok (m',entry)) (h : Reached l s)
    (hcode : AgreeOn programArea m' s.cpu.memory) (hentry : read s.cpu.memory (s.cpu.regs .esp+4) = entry)
    (hstart : Step l s .switchToUserMode t) : Follows l m false t := by
  rw [installUserProgram_eq] at hinstall
  obtain ⟨rfl,rfl⟩ := Prod.mk.inj (Except.ok.inj hinstall)
  obtain ⟨hagree,hstart⟩ := hstart
  have hmain : s.kernel.running = 1 := hstart.2.1
  refine ⟨h.step hstart,hcode.trans hagree,fun x hx => ?_⟩
  rw [show t.threads l = _ from (h.good.step hstart).2,← hmain] at hx
  rw [← Option.some.inj (Threads.set_context_self.symm.trans hx)]
  refine ⟨by change ring 0x1B = 3; decide,0,_,rfl,?_,by simp⟩
  exact hentry.trans (by decide)

end Follows

/-- From the jump to ring 3 on, on every run of the machine with its interrupts, other threads and
kills: the system calls are one print and then sleeps of 20 ticks, the print shows the message, and
the program never faults. -/
theorem user_program_calls {l : Layout} {m m' : Memory} {entry : UInt32}
    (hinstall : installUserProgram m = .ok (m',entry)) {s t : System} (h : Reached l s)
      (hcode : AgreeOn programArea m' s.cpu.memory)
    (hentry : read s.cpu.memory (s.cpu.regs .esp+4) = entry) (hstart : Step l s .switchToUserMode t)
    {path : List (Event × System)} (hpath : Runs.Along (Step l) t path) :
    callsOf t path <+: printCall::List.replicate path.length sleepCall ∧
    Runs.Along (fun s e t => (e = .syscall → callOf s = printCall → Prints s t) ∧
      ∀ address code, e ≠ .pageFault address code) t path := by
  have hfollows := Follows.start hinstall h hcode hentry hstart
  refine ⟨hfollows.calls hpath,
    hpath.of_invariant (I := fun s => ∃ printed, Follows l m printed s) ?_ ?_ ⟨false,hfollows⟩⟩
  · rintro s e t ⟨printed,hs⟩ hstep
    exact ⟨_,(hs.step hstep).1⟩
  · rintro s e t ⟨printed,hs⟩ hstep
    obtain ⟨-,hcall,hfault⟩ := hs.step hstep
    exact ⟨fun he => (hcall he).2,hfault⟩

def sampleInstalled : System :=
  { sampleStart with
    cpu := { sampleStart.cpu with memory := write (installed sampleStart.cpu.memory) 0x9004 userCodeAddr } }

theorem sampleInstalled_memory {b : UInt32} (hb : b ∉ programArea) (hargument : b ∉ span 0x9004 4) :
    sampleInstalled.cpu.memory b = sampleStart.cpu.memory b :=
  (write_outside (by decide) hargument).trans (installed_outside _ hb)

theorem sampleInstalled_reached : Reached sampleLayout sampleInstalled := by
  refine sampleStart_reached.step (e := .work) ⟨rfl,rfl,?_⟩
  rw [System.Works,if_pos (show ring sampleStart.cpu.cs = 0 from ring_kernelCode),
    if_pos (show sampleStart.kernel.running = 1 from rfl)]
  refine ⟨rfl,rfl,fun b hb => (sampleInstalled_memory (fun hprogram => ?_) fun hargument => ?_).symm,by decide⟩
  · exact absurd hprogram.1 (not_le.mpr (sampleStart_reached.good.foreign_low hb))
  · obtain ⟨id,-,-,hge,-⟩ := hb
    have hbases : (0x9004 : UInt32).toNat+4 ≤ (sampleStart.bases id).toNat := by
      have hbase : sampleStart.bases id = if id = 2 then 0x202898 else 0x200898 := by
        simp [sampleStart,Function.update_apply]
      rw [hbase]
      split_ifs <;> decide
    exact absurd hge (not_le.mpr (hargument.2.trans_le hbases))

theorem sampleInstalled_code : AgreeOn programArea (installed sampleStart.cpu.memory) sampleInstalled.cpu.memory := by
  refine agreeOn_write (by decide) (Set.disjoint_left.mpr fun b hb hargument => ?_)
  have hbelow : (0x9004 : UInt32).toNat+4 ≤ userCodeAddr.toNat := by decide
  exact absurd hb.1 (not_le.mpr (hargument.2.trans_le hbelow))

theorem sampleInstalled_jump : ∃ t, Step sampleLayout sampleInstalled .switchToUserMode t ∧ t.cpu.eip = userCodeAddr ∧
    ring t.cpu.cs ≠ 0 := by
  obtain ⟨t,hstep,hcontext,hmemory⟩ := sampleStart_jump (c := sampleInstalled.cpu) rfl rfl
  refine ⟨t,⟨hmemory.mono fun b hb hstack => ?_,hstep⟩,?_,by rw [hcontext]; decide⟩
  · have hbelow : ((0x9000 : UInt32)-20).toNat+20 ≤ userCodeAddr.toNat := by decide
    exact absurd hb.1 (not_le.mpr (hstack.2.trans_le hbelow))
  · rw [hcontext]
    exact read_write_self _ _ _

theorem Step.instruction {l : Layout} {s : System} (hring : ring s.cpu.cs ≠ 0) {i : UserInstr}
    (hfetch : fetch s.cpu.memory s.cpu.eip = some i) (hint : ∀ vector, i ≠ .int vector) :
    Step l s .work (behind s i) := by
  refine ⟨.refl,?_⟩
  dsimp only
  rw [if_neg hring]
  exact ⟨i,hfetch,hint,rfl⟩

theorem Follows.exists_syscall {l : Layout} {m : Memory} {printed : Bool} {s : System} (h : Follows l m printed s)
    (hring : ring s.cpu.cs ≠ 0) (hfetch : fetch s.cpu.memory s.cpu.eip = some (.int 0x80)) :
    ∃ t, Step l s .syscall t := by
  have hgood := (h.reached.step (h.behind_step hring (.int 0x80))).good
  obtain ⟨t,hstep,hmemory⟩ := hgood.syscall_returns hring
  refine ⟨t,hmemory.mono fun b hb hstack => ?_,hfetch,hstep⟩
  exact absurd hb.1 (not_le.mpr (hstack.2.trans_le (hgood.low _ (Kernel.live_running _))))

/-- The program up to its print call. -/
theorem user_program_calls_start : ∃ m' entry t s u path, installUserProgram sampleStart.cpu.memory = .ok (m',entry) ∧
    Reached sampleLayout sampleInstalled ∧ AgreeOn programArea m' sampleInstalled.cpu.memory ∧
    Step sampleLayout sampleInstalled .switchToUserMode t ∧
    Runs.Along (Step sampleLayout) t (path++[(.work,s),(.syscall,u)]) ∧
    callsOf t (path++[(.work,s),(.syscall,u)]) = [printCall] ∧ Prints s u := by
  obtain ⟨t,hstep,heip,hring⟩ := sampleInstalled_jump
  have hinstall := installUserProgram_eq sampleStart.cpu.memory
  have hentry : read sampleInstalled.cpu.memory (sampleInstalled.cpu.regs .esp+4) = userCodeAddr :=
    read_write_self _ _ _
  have hcode := sampleInstalled_code.trans hstep.1
  have hfollows := Follows.start hinstall sampleInstalled_reached sampleInstalled_code hentry hstep
  have hfetch (k : ℕ) {i : UserInstr} (hi : instructionAt k = some i) :
      fetch t.cpu.memory (userCodeAddr+UInt32.ofNat k) = some i := fetch_program hcode hi
  let s₁ := behind t (.mov .eax 1)
  let s₂ := behind s₁ (.mov .ebx userMsgAddr)
  let s₃ := behind s₂ (.mov .ecx 50)
  have h₁ : fetch t.cpu.memory t.cpu.eip = some (.mov .eax 1) := by rw [heip]; exact hfetch 0 rfl
  have h₂ : fetch s₁.cpu.memory s₁.cpu.eip = some (.mov .ebx userMsgAddr) := by
    change fetch t.cpu.memory (t.cpu.eip+5) = _
    rw [heip]
    exact hfetch 5 rfl
  have h₃ : fetch s₂.cpu.memory s₂.cpu.eip = some (.mov .ecx 50) := by
    change fetch t.cpu.memory (t.cpu.eip+5+5) = _
    rw [heip]
    exact hfetch 10 rfl
  have h₄ : fetch s₃.cpu.memory s₃.cpu.eip = some (.int 0x80) := by
    change fetch t.cpu.memory (t.cpu.eip+5+5+5) = _
    rw [heip]
    exact hfetch 15 rfl
  have hloaded :=
    ((hfollows.instruction hring h₁ (by simp)).instruction hring h₂ (by simp)).instruction hring h₃ (by simp)
  obtain ⟨u,hu⟩ := hloaded.exists_syscall hring h₄
  have hpath : Runs.Along (Step sampleLayout) t [(.work,s₁),(.work,s₂),(.work,s₃),(.syscall,u)] :=
    ⟨.instruction hring h₁ (by simp),.instruction (s := s₁) hring h₂ (by simp),
      .instruction (s := s₂) hring h₃ (by simp),hu,trivial⟩
  obtain ⟨hcalls,hruns⟩ := user_program_calls hinstall sampleInstalled_reached sampleInstalled_code hentry hstep hpath
  have hlist : callsOf t [(.work,s₁),(.work,s₂),(.work,s₃),(.syscall,u)] = [callOf s₃] := by simp [callsOf]
  rw [hlist] at hcalls
  have hcall : callOf s₃ = printCall := (List.cons_prefix_cons.mp hcalls).1
  exact ⟨_,_,t,s₃,u,[(.work,s₁),(.work,s₂)],hinstall,sampleInstalled_reached,sampleInstalled_code,hstep,hpath,
    hlist.trans (by rw [hcall]),hruns.2.2.2.1.1 rfl hcall⟩

end UserProgram
end EnosKernel
