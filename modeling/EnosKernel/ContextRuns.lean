import EnosKernel.ContextSwitch

/-! Runs of the machine from boot on: contexts survive them and preemption does not stop.  What the
handlers do is one step here; the locks that they meet on the way come in with `LockedThreads`. -/
namespace EnosKernel
namespace Contexts

open ByteMemory Ia32 Interrupts Scheduler

theorem set_eax (c : Cpu) (x : UInt32) : (c.set .eax x).regs .eax = x := by rw [Cpu.set_regs,Function.update_self]

theorem returns_set (kept : Set UInt32) (c : Cpu) (x : UInt32) : Returns kept c (c.set .eax x) :=
  ⟨fun _ hr _ _ => Function.update_of_ne hr _ _,rfl,rfl,.refl⟩

theorem served {bases : ℕ → UInt32} {is : List (Instr Callee)} {k k' : Kernel} {c d : Cpu}
    (h : Exec (calls bases) is (k,c) (k',d)) :
    ∃ t : System, t.bases = bases ∧ Exec (calls bases) is (k,c) (t.kernel,t.cpu) :=
  ⟨⟨d,k',bases⟩,rfl,h⟩

namespace Good

variable {l : Layout} {s : System}

theorem timer_returns (h : Good l s) (hflag : s.cpu.eflags &&& interruptFlag ≠ 0) : ∃ t, Step l s .timer t := by
  suffices hexec : ∃ k d, Exec (calls s.bases) timerInterruptWrapper
      (s.kernel,s.cpu.enter l.tss (gate l.timer) none) (k,d) by
    obtain ⟨k,d,hexec⟩ := hexec
    obtain ⟨t,hbases,hexec⟩ := served hexec
    exact ⟨t,hflag,hbases,hexec⟩
  simp only [timerInterruptWrapper_exec]
  generalize (s.cpu.enter l.tss (gate l.timer) none).pushad = d
  generalize d.pushes [d.regs .esp] = e
  obtain ⟨idx,task,hswitch⟩ := h.sched.scheduleNext (arg e 0)
  exact ⟨⟨_,s.kernel.screen,s.kernel.serial⟩,_,e.set .eax task.stackPtr,_,rfl,
    ⟨_,_,hswitch.returns,Invariant.apply_scheduleNext hswitch,rfl,rfl,set_eax e _,returns_set _ e _⟩,rfl⟩

theorem keyboard_returns (hflag : s.cpu.eflags &&& interruptFlag ≠ 0) : ∃ t, Step l s .keyboard t := by
  have hcall (c : Cpu) : Exec (calls s.bases) keyboardInterruptHandler (s.kernel,c) (s.kernel,c.iretd) :=
    ⟨(s.kernel,c),⟨rfl,rfl,fun _ _ _ _ => rfl,rfl,rfl,.refl⟩,(s.kernel,c.iretd),rfl,rfl⟩
  obtain ⟨t,hbases,hexec⟩ := served (hcall (s.cpu.enter l.tss (gate l.keyboard) none))
  exact ⟨t,hflag,hbases,hexec⟩

theorem syscall_returns (h : Good l s) (hring : ring s.cpu.cs ≠ 0) :
    ∃ t, Step l s .syscall t ∧ AgreeOn (stackOf s.bases s.kernel.running)ᶜ s.cpu.memory t.cpu.memory := by
  obtain ⟨-,hentered⟩ := h.entered_saved (h.user_runs hring).2 l.syscall
  suffices hexec : ∃ k d, Exec (calls s.bases) syscallWrapper
      (s.kernel,s.cpu.enter l.tss (gate l.syscall) none) (k,d) ∧
      AgreeOn (stackOf s.bases s.kernel.running)ᶜ s.cpu.memory d.memory by
    obtain ⟨k,d,hexec,hmemory⟩ := hexec
    exact ⟨⟨d,k,s.bases⟩,⟨hring,rfl,hexec⟩,hmemory⟩
  simp only [syscallWrapper_exec]
  generalize (s.cpu.enter l.tss (gate l.syscall) none).pushad = d at hentered ⊢
  have horder : [.esp,.edi,.esi,.edx,.ecx,.ebx,.eax].map d.regs =
      ([.eax,.ebx,.ecx,.edx,.esi,.edi,.esp].map d.regs).reverse := by simp
  let e := (d.set .ebp (d.regs .esp)).pushes ([.esp,.edi,.esi,.edx,.ecx,.ebx,.eax].map d.regs)
  let answer := Syscalls.syscallDispatcher s.kernel.statics e.memory (arg e 0) (arg e 1) (arg e 2) (arg e 3)
    (arg e 4) (arg e 5) (arg e 6)
  obtain ⟨-,hpushed,hesp,-⟩ := h.called hentered (c := d.set .ebp (d.regs .esp)) (by simp) rfl rfl rfl
    ([.eax,.ebx,.ecx,.edx,.esi,.edi,.esp].map d.regs) (by simp) (returns_set _ _ answer.1)
  rw [← horder] at hpushed hesp
  refine ⟨s.kernel.afterSyscall answer.2 (arg e 6),_,⟨e.set .eax answer.1,_,rfl,
    ⟨rfl,set_eax e _,returns_set _ e _⟩,rfl⟩,?_⟩
  have hback : (e.set .eax answer.1).regs .esp+28 = d.regs .esp := hesp
  simp only [Cpu.iretd_memory,Cpu.popad_memory,Cpu.set_memory,hback]
  exact (hentered.memory.trans hpushed).trans (h.stores_eax hentered e.memory _)

theorem pageFault_returns (h : Good l s) (hring : ring s.cpu.cs ≠ 0) (address : UInt32) {code : UInt32}
    (hcode : code &&& 4 ≠ 0) : ∃ t, Step l s (.pageFault address code) t := by
  suffices hexec : ∃ k d, Exec (calls s.bases) pageFaultWrapper
      (s.kernel,{ s.cpu with cr2 := address }.enter l.tss (gate l.pageFault) (some code)) (k,d) by
    obtain ⟨k,d,hexec⟩ := hexec
    obtain ⟨t,hbases,hexec⟩ := served hexec
    exact ⟨t,hring,hcode,hbases,hexec⟩
  obtain ⟨d,hd,hentered,hcr2,hread⟩ := h.fault_entered hring address code
  simp only [pageFaultWrapper_exec,hd,hcr2,hread]
  have huser : s.kernel.sched.UserRuns := by
    obtain ⟨hmain,-⟩ := h.user_runs hring
    cases htracked : s.kernel.sched.manager.mainTaskTracked with
    | false => exact Or.inl htracked
    | true =>
      obtain ⟨task,hget,hid⟩ := h.sched.current htracked
      exact Or.inr ⟨task,hget,(h.sched.user_iff task (List.mem_of_getElem? hget)).mpr (hid.trans hmain)⟩
  obtain ⟨-,idx,task,hswitch⟩ := h.sched.terminateFromFault huser (d.regs .esp)
  obtain ⟨⟨hframe,haddress,herror⟩,-⟩ := h.fault_called hentered (returns_set _ _ task.stackPtr)
  generalize (faultArguments d).pushes [code,address,d.regs .esp] = e at hframe haddress herror
  have hsched := Invariant.apply_terminateFromFault hswitch
  have hresult := fault_result address hcode hswitch
  rw [← hframe] at hsched hresult
  rw [← haddress,← herror] at hresult
  exact ⟨⟨_,s.kernel.screen,_⟩,_,e.set .eax task.stackPtr,_,rfl,
    ⟨_,hresult,hsched,set_eax e _,returns_set _ e _⟩,rfl⟩

end Good

/-- The end of boot, right before the first registration. -/
structure Boot (l : Layout) (s : System) : Prop where
  sched : s.kernel.sched = Traced.new
  code : s.cpu.cs = kernelCode
  data : s.cpu.ss = kernelData
  masked : s.cpu.eflags &&& interruptFlag = 0
  main : s.bases 1 = l.interruptStack

theorem Boot.placed {l : Layout} {s : System} (h : Boot l s) : Placed l s := by
  have hrunning : s.kernel.running = 1 := by rw [Kernel.running,h.sched]; rfl
  have hsaved (id : ℕ) : s.kernel.saved id = none := by rw [Kernel.saved,h.sched]; rfl
  have hlive {id : ℕ} (hlive : s.kernel.Live id) : id = 1 := by
    rcases hlive with hid | hsome
    · exact hid.trans hrunning
    · simp [hsaved] at hsome
  refine ⟨h.main,?_,?_,Or.inl ⟨hrunning,h.code,h.data,h.masked,by rw [h.sched]; rfl⟩,?_⟩
  · intro id hid
    rw [hlive hid,h.main]
    exact l.low
  · intro id id' hid hid' hne
    exact absurd ((hlive hid).trans (hlive hid').symm) hne
  · intro id sp _ hsp
    simp [hsaved] at hsp

/-- States reached from the end of boot, whose first act is to register a thread. -/
def Reached (l : Layout) (t : System) : Prop :=
  ∃ boot name entryPoint stack s, Boot l boot ∧ Step l boot (.registerNamedTask name entryPoint stack) s ∧
    Runs.Reachable (Step l) s t

theorem Boot.first {l : Layout} {boot s : System} (h : Boot l boot) {name : String} {entryPoint stack : UInt32}
    (hstep : Step l boot (.registerNamedTask name entryPoint stack) s) : Good l s ∧
    s.threads l = ((boot.threads l).set s.cpu.toContext).start boot.kernel.sched.manager.nextTaskId
      (freshContext entryPoint stack) := by
  have hsched := h.sched
  obtain ⟨hplaced,hthreads⟩ := h.placed.registerNamedTask (by rw [hsched]; decide)
    (by rw [hsched]; simp [Traced.new,TaskManager.new]) (by rw [Kernel.running,hsched]; decide) hstep
  have hcall := hstep.2.2.2.1
  rw [hsched] at hcall
  exact ⟨⟨hplaced,Invariant.start hcall⟩,hthreads⟩

theorem Reached.good {l : Layout} {t : System} (h : Reached l t) : Good l t := by
  obtain ⟨boot,name,entryPoint,stack,s,hboot,hfirst,hrun⟩ := h
  exact hrun.invariant (fun s e t hs hstep => (hs.step hstep).1) (hboot.first hfirst).1

theorem Reached.step {l : Layout} {s t : System} {e : Event} (h : Reached l s) (hstep : Step l s e t) :
    Reached l t := by
  obtain ⟨boot,name,entryPoint,stack,first,hboot,hfirst,hrun⟩ := h
  exact ⟨boot,name,entryPoint,stack,first,hboot,hfirst,hrun.tail ⟨e,hstep⟩⟩

/-- One processor is as good as one for each thread: along every run an interrupt, whichever thread
it hits and whichever it goes on with, leaves every context as it was, a system call changes
nothing of its caller but `eax`, and a new thread starts at its entry point. -/
theorem contexts_survive {l : Layout} {s : System} (h : Reached l s) {path : List (Event × System)}
    (hpath : Runs.Along (Step l) s path) : Runs.Along (Effect l) s path :=
  hpath.of_invariant (I := Good l) (fun _ _ _ hs hstep => (hs.step hstep).1) (fun _ _ _ hs hstep => (hs.step hstep).2)
    h.good

/-- A machine at the end of boot, with the interrupt stack behind the tables on a heap at 2 MiB. -/
def sampleLayout : Layout where
  place := ⟨0x120000,0x121000,0x122000,by decide,by decide,by decide,by decide,by decide,by decide⟩
  interruptStack := 0x200898
  timer := 0x101000
  keyboard := 0x102000
  pageFault := 0x103000
  syscall := 0x104000
  low := by decide

def sampleBoot : System where
  cpu := { regs := fun _ => 0x9000, eip := 0x105000, eflags := 2, cs := kernelCode, ss := kernelData,
           memory := fun _ => 0, cr2 := 0 }
  kernel := ⟨Traced.new,[],[]⟩
  bases := fun _ => 0x200898

def sampleStart : System where
  cpu := { sampleBoot.cpu with memory := (newStack kernelCode 0x106000 0x202898).1 }
  kernel := ⟨{ Traced.new with
    manager := { TaskManager.new with tasks := [Task.new 2 "background_thread" .kernel 0x202898], nextTaskId := 3 }
    created := Function.update (fun _ => none) 2 (some (Task.new 2 "background_thread" .kernel 0x202898).stackPtr)
    registered := [(2,"background_thread")] },[],[]⟩
  bases := Function.update (fun _ => 0x200898) 2 0x202898

theorem sampleBoot_boot : Boot sampleLayout sampleBoot := ⟨rfl,rfl,rfl,by decide,rfl⟩

theorem sampleStart_call :
    sampleBoot.kernel.sched.Call (.registerNamedTask "background_thread" 0x202898) sampleStart.kernel.sched := rfl

theorem sampleBoot_live {id : ℕ} (hlive : sampleBoot.kernel.Live id) : id = sampleBoot.kernel.running :=
  hlive.resolve_right (by simp [Kernel.saved,sampleBoot,Traced.new,TaskManager.new,pointers])

theorem sampleBoot_free : sampleBoot.Free 0x202898 := by
  refine ⟨by decide,fun id _ => ?_⟩
  rw [Set.disjoint_left]
  rintro b ⟨hge,-⟩ ⟨-,hlt⟩
  have hstacks : (sampleBoot.bases id).toNat+stackSize.toNat ≤ (0x202898 : UInt32).toNat := by
    change (0x200898 : UInt32).toNat+stackSize.toNat ≤ _
    decide
  exact absurd hge (not_le.mpr (hlt.trans_le hstacks))

theorem sampleStart_works : sampleBoot.Works sampleLayout sampleStart.cpu := by
  have hrunning : sampleBoot.kernel.running = 1 := rfl
  rw [System.Works,if_pos (show ring sampleBoot.cpu.cs = 0 from ring_kernelCode),if_pos hrunning]
  refine ⟨rfl,rfl,?_,by decide⟩
  rintro b ⟨id,hid,hlive,-⟩
  exact absurd (sampleBoot_live hlive) hid

theorem sampleStart_step :
    Step sampleLayout sampleBoot (.registerNamedTask "background_thread" 0x106000 0x202898) sampleStart :=
  ⟨sampleBoot_free,ring_kernelCode,rfl,sampleStart_call,sampleStart_works,.refl⟩

theorem sampleStart_reached : Reached sampleLayout sampleStart :=
  ⟨sampleBoot,_,_,_,sampleStart,sampleBoot_boot,sampleStart_step,.refl⟩

theorem exists_switchToUserMode (bases : ℕ → UInt32) (k : Kernel) (c : Cpu) :
    ∃ d, Exec (calls bases) switchToUserMode (k,c) (k,d) :=
  ⟨_,_,rfl,_,rfl,_,rfl,_,rfl,_,rfl,_,rfl,_,rfl,_,rfl,_,rfl,_,rfl,rfl⟩

theorem sampleStart_jump {c : Cpu} (hcode : c.cs = kernelCode) (hesp : c.regs .esp = 0x9000) :
    ∃ t, Step sampleLayout { sampleStart with cpu := c } .switchToUserMode t ∧ t.cpu.toContext = userContext c ∧
      AgreeOn (span (0x9000-20) 20)ᶜ c.memory t.cpu.memory := by
  obtain ⟨d,hexec⟩ := exists_switchToUserMode sampleStart.bases sampleStart.kernel c
  have hring : ring c.cs = 0 := by rw [hcode,ring_kernelCode]
  have hroom : 20 ≤ (c.regs .esp).toNat := by rw [hesp]; decide
  obtain ⟨-,hcontext,hmemory⟩ := switchToUserMode_exec hexec hring hroom
  refine ⟨⟨d,sampleStart.kernel,sampleStart.bases⟩,⟨hring,rfl,rfl,hroom,?_,hexec⟩,hcontext,hesp ▸ hmemory⟩
  rw [Set.disjoint_left]
  rintro b ⟨-,hlt⟩ ⟨id,-,-,hge,-⟩
  have hbases : (c.regs .esp-20).toNat+20 ≤ (sampleStart.bases id).toNat := by
    have hbase : sampleStart.bases id = if id = 2 then 0x202898 else 0x200898 := by
      simp [sampleStart,Function.update_apply]
    rw [hbase,hesp]
    split_ifs <;> decide
  exact absurd hge (not_le.mpr (hlt.trans_le hbases))

theorem sampleStart_user : ∃ t, Step sampleLayout sampleStart .switchToUserMode t ∧
    t.cpu.eflags &&& interruptFlag ≠ 0 ∧ ring t.cpu.cs ≠ 0 := by
  obtain ⟨t,hstep,hcontext,-⟩ := sampleStart_jump (c := sampleStart.cpu) rfl rfl
  exact ⟨t,hstep,by rw [hcontext]; decide,by rw [hcontext]; decide⟩

theorem contexts_survive_first_tick : ∃ t u, Reached sampleLayout sampleStart ∧
    Runs.Along (Step sampleLayout) sampleStart [(.switchToUserMode,t),(.timer,u)] ∧
    Runs.Along (Effect sampleLayout) sampleStart [(.switchToUserMode,t),(.timer,u)] := by
  obtain ⟨t,ht,hflag,-⟩ := sampleStart_user
  obtain ⟨u,hu⟩ := (sampleStart_reached.good.step ht).1.timer_returns hflag
  have hpath : Runs.Along (Step sampleLayout) sampleStart [(.switchToUserMode,t),(.timer,u)] := ⟨ht,hu,trivial⟩
  exact ⟨t,u,sampleStart_reached,hpath,contexts_survive sampleStart_reached hpath⟩

namespace Threads

/-- Whenever the thread runs again, it can be interrupted. -/
def Enabled (p : Threads) (id : ℕ) : Prop := ∀ x, p.context id = some x → x.eflags &&& interruptFlag ≠ 0

/-- Every thread that waits can be interrupted once it runs. -/
def Preemptible (p : Threads) : Prop := ∀ id ≠ p.running, p.Enabled id

variable {p : Threads}

theorem Enabled.stop {id : ℕ} (h : p.Enabled id) (other : ℕ) : (p.stop other).Enabled id :=
  fun x hx => h x (of_stop hx)

theorem Preemptible.set (h : p.Preemptible) (x : Context) : (p.set x).Preemptible :=
  fun id hid y hy => h id hid y (by rwa [set_context_of_ne (p := p) hid] at hy)

theorem Preemptible.stop (h : p.Preemptible) (other : ℕ) : (p.stop other).Preemptible :=
  fun id hid => (h id hid).stop other

theorem Preemptible.start (h : p.Preemptible) {id : ℕ} {x : Context} (hx : x.eflags &&& interruptFlag ≠ 0) :
    (p.start id x).Preemptible := by
  intro other hother y hy
  by_cases hid : other = id
  · rw [hid,start_context_self] at hy
    rwa [← Option.some.inj hy]
  · exact h other hother y (by rwa [start_context_of_ne hid] at hy)

theorem Preemptible.enabled (h : p.Preemptible) (hrunning : p.Enabled p.running) (id : ℕ) : p.Enabled id := by
  by_cases hid : id = p.running
  · rwa [hid]
  · exact h id hid

theorem Preemptible.enabled_stop (h : p.Preemptible) (id : ℕ) : (p.stop p.running).Enabled id := by
  by_cases hid : id = p.running
  · intro x hx
    rw [hid,stop_context_self] at hx
    simp at hx
  · exact (h id hid).stop _

end Threads

theorem System.enabled_running {l : Layout} {s : System} :
    (s.threads l).Enabled (s.threads l).running ↔ s.cpu.eflags &&& interruptFlag ≠ 0 := by
  have hcontext : (s.threads l).context (s.threads l).running = some s.cpu.toContext := s.contextOf_running rfl
  simp only [Threads.Enabled,hcontext,Option.some.injEq,forall_eq']

theorem freshContext_enabled (entryPoint stack : UInt32) :
    (freshContext entryPoint stack).eflags &&& interruptFlag ≠ 0 :=
  show (0x202 : UInt32) &&& interruptFlag ≠ 0 by decide

/-- A tick needs the flag, so the thread it leaves waiting has it set. -/
theorem Good.timer_enabled {l : Layout} {s t : System} (h : Good l s) (hp : (s.threads l).Preemptible)
    (hstep : Step l s .timer t) (id : ℕ) : (t.threads l).Enabled id := by
  have hall := hp.enabled (System.enabled_running.mpr hstep.1)
  rw [(h.timer hstep).2]
  split_ifs
  · exact (hall id).stop _
  · exact hall id

theorem Good.pageFault_enabled {l : Layout} {s t : System} (h : Good l s) (hp : (s.threads l).Preemptible)
    {address code : UInt32} (hstep : Step l s (.pageFault address code) t) (id : ℕ) : (t.threads l).Enabled id := by
  rw [(h.pageFault hstep).2.1]
  exact hp.enabled_stop id

theorem Good.preemptible {l : Layout} {s t : System} {e : Event} (h : Good l s) (hp : (s.threads l).Preemptible)
    (hstep : Step l s e t) : (t.threads l).Preemptible := by
  cases e with
  | work =>
    rw [(h.work hstep).2]
    exact hp.set _
  | timer => exact fun id _ => h.timer_enabled hp hstep id
  | keyboard => rwa [(h.keyboard hstep).2]
  | syscall =>
    obtain ⟨-,esp,hthreads,-⟩ := h.syscall hstep
    rw [hthreads]
    exact hp.set _
  | pageFault address code => exact fun id _ => h.pageFault_enabled hp hstep id
  | kill pid =>
    rcases (h.kill hstep).2 with hthreads | ⟨-,hthreads⟩
    · rw [hthreads]
      exact hp.set _
    · rw [hthreads]
      exact (hp.set _).stop pid
  | registerNamedTask name entryPoint stack =>
    rw [(h.registerNamedTask hstep).2]
    exact (hp.set _).start (freshContext_enabled entryPoint stack)
  | switchToUserMode =>
    rw [(h.switchToUserMode hstep).2]
    exact hp.set _

theorem Boot.preemptible {l : Layout} {s : System} (h : Boot l s) : (s.threads l).Preemptible := by
  intro id hid x hx
  have hnone : s.kernel.saved id = none := by rw [Kernel.saved,h.sched]; rfl
  have hcontext : (s.threads l).context id = none := System.contextOf_none hid hnone
  simp [hcontext] at hx

theorem Reached.preemptible {l : Layout} {t : System} (h : Reached l t) : (t.threads l).Preemptible := by
  obtain ⟨boot,name,entryPoint,stack,s,hboot,hfirst,hrun⟩ := h
  obtain ⟨hgood,hthreads⟩ := hboot.first hfirst
  have hstart : (s.threads l).Preemptible := by
    rw [hthreads]
    exact (hboot.preemptible.set _).start (freshContext_enabled entryPoint stack)
  exact (hrun.invariant (I := fun s => Good l s ∧ (s.threads l).Preemptible)
    (fun s e t hs hstep => ⟨(hs.1.step hstep).1,hs.1.preemptible hs.2 hstep⟩) ⟨hgood,hstart⟩).2

/-- Preemption does not stop: whatever thread a tick or a fault goes on with, it runs with interrupts
enabled, and from there on ticks can follow one another for any length of time. -/
theorem preemption_persists {l : Layout} {s t : System} (h : Reached l s)
    (hstep : Step l s .timer t ∨ ∃ address code, Step l s (.pageFault address code) t) :
    t.cpu.eflags &&& interruptFlag ≠ 0 ∧
    ∀ n, ∃ path, path.map Prod.fst = List.replicate n .timer ∧ Runs.Along (Step l) t path := by
  have hall : Reached l t ∧ ∀ id, (t.threads l).Enabled id := by
    rcases hstep with hstep | ⟨address,code,hstep⟩
    · exact ⟨h.step hstep,h.good.timer_enabled h.preemptible hstep⟩
    · exact ⟨h.step hstep,h.good.pageFault_enabled h.preemptible hstep⟩
  have hflag : t.cpu.eflags &&& interruptFlag ≠ 0 := System.enabled_running.mp (hall.2 _)
  refine ⟨hflag,Runs.exists_replicate
    (I := fun u => Reached l u ∧ u.cpu.eflags &&& interruptFlag ≠ 0) ?_ ⟨hall.1,hflag⟩⟩
  rintro u ⟨hu,huflag⟩
  obtain ⟨v,hv⟩ := hu.good.timer_returns huflag
  exact ⟨v,hv,hu.step hv,System.enabled_running.mp (hu.good.timer_enabled hu.preemptible hv _)⟩

theorem preemption_persists_first_tick : ∃ s t, Reached sampleLayout s ∧ Step sampleLayout s .timer t ∧
    t.cpu.eflags &&& interruptFlag ≠ 0 := by
  obtain ⟨s,hs,hflag,-⟩ := sampleStart_user
  have hreached := sampleStart_reached.step hs
  obtain ⟨t,ht⟩ := hreached.good.timer_returns hflag
  exact ⟨s,t,hreached,ht,(preemption_persists hreached (Or.inl ht)).1⟩

end Contexts
end EnosKernel
