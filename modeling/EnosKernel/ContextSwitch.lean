import EnosKernel.ThreadContexts

/-! One processor that serves all threads is as good as one for each: the contexts of threads that
do not run lie in their stacks, and no interrupt loses or changes them. -/
namespace EnosKernel
namespace Contexts

open ByteMemory Ia32 Interrupts Scheduler

/-- Every thread with a processor of its own, and the one that is at work. -/
@[ext] structure Threads where
  running : ℕ
  context : ℕ → Option Context

namespace Threads

def set (p : Threads) (x : Context) : Threads := { p with context := Function.update p.context p.running (some x) }

def stop (p : Threads) (id : ℕ) : Threads := { p with context := Function.update p.context id none }

def start (p : Threads) (id : ℕ) (x : Context) : Threads :=
  { p with context := Function.update p.context id (some x) }

def switch (p : Threads) (id : ℕ) : Threads := { p with running := id }

variable {p : Threads} {x : Context} {id other : ℕ}

theorem set_context_self : (p.set x).context p.running = some x := Function.update_self _ _ _
theorem set_context_of_ne (h : other ≠ p.running) : (p.set x).context other = p.context other :=
  Function.update_of_ne h _ _
theorem stop_context_self : (p.stop id).context id = none := Function.update_self _ _ _
theorem stop_context_of_ne (h : other ≠ id) : (p.stop id).context other = p.context other := Function.update_of_ne h _ _
theorem of_stop (h : (p.stop id).context other = some x) : p.context other = some x := by
  by_cases hid : other = id
  · rw [hid,stop_context_self] at h
    simp at h
  · rwa [stop_context_of_ne hid] at h
theorem start_context_self : (p.start id x).context id = some x := Function.update_self _ _ _
theorem start_context_of_ne (h : other ≠ id) : (p.start id x).context other = p.context other :=
  Function.update_of_ne h _ _

theorem isSome_of_set (hrunning : (p.context p.running).isSome) (h : ((p.set x).context other).isSome) :
    (p.context other).isSome := by
  by_cases hid : other = p.running
  · rwa [hid]
  · rwa [set_context_of_ne hid] at h

theorem isSome_of_stop (h : ((p.stop id).context other).isSome) : (p.context other).isSome := by
  obtain ⟨x,hx⟩ := Option.isSome_iff_exists.mp h
  rw [of_stop hx]
  rfl

end Threads

/-- The context of a thread: in the processor if it runs, else what its saved pointer leads to. -/
def System.contextOf (l : Layout) (s : System) (id : ℕ) : Option Context :=
  if id = s.kernel.running then some s.cpu.toContext
  else (s.kernel.saved id).map fun sp => suspended s.cpu.memory sp kernelCode l.tss

def System.threads (l : Layout) (s : System) : Threads := ⟨s.kernel.running,s.contextOf l⟩

/-- A context as a thread may have it: the initial thread in ring 3, any other one in the kernel
and on its own stack. -/
def Fits (bases : ℕ → UInt32) (id : ℕ) (x : Context) : Prop :=
  if id = 1 then ring x.cs = 3
  else x.cs = kernelCode ∧ x.ss = kernelData ∧ InStack (bases id) (x.regs .esp)

/-- Boot code, before the jump to ring 3. -/
structure Booting (s : System) : Prop where
  running : s.kernel.running = 1
  code : s.cpu.cs = kernelCode
  data : s.cpu.ss = kernelData
  masked : s.cpu.eflags &&& interruptFlag = 0
  untracked : s.kernel.sched.manager.mainTaskTracked = false

/-- The stacks are apart and below user space, and each thread that waits has a frame in its own. -/
structure Placed (l : Layout) (s : System) : Prop where
  main : s.bases 1 = l.interruptStack
  low : ∀ id, s.kernel.Live id → (s.bases id).toNat+stackSize.toNat ≤ Paging.userSpaceStart.toNat
  apart : ∀ id id', s.kernel.Live id → s.kernel.Live id' → id ≠ id' →
    Disjoint (stackOf s.bases id) (stackOf s.bases id')
  runs : Booting s ∨ Fits s.bases s.kernel.running s.cpu.toContext
  saved : ∀ id sp, id ≠ s.kernel.running → s.kernel.saved id = some sp →
    ∃ x, Saved s.cpu.memory sp l.tss x ∧ Fits s.bases id x

structure Good (l : Layout) (s : System) : Prop extends Placed l s where
  sched : Invariant s.kernel.sched

theorem Layout.esp0_toNat (l : Layout) : l.tss.esp0.toNat = l.interruptStack.toNat+8192 := by
  have hlow := l.low
  simp only [stackSize,UInt32.reduceToNat,Paging.userSpaceStart] at hlow
  simp only [Layout.tss,stackSize]
  rw [toNat_add] <;> simp only [UInt32.reduceToNat]; omega

theorem ring_kernelCode : ring kernelCode = 0 := rfl

namespace Fits

variable {l : Layout} {bases : ℕ → UInt32} {id : ℕ} {x : Context}

theorem segment (h : Fits bases id x) (hring : ring x.cs = 0) : x.ss = l.tss.ss0 := by
  unfold Fits at h
  split_ifs at h
  · simp [h] at hring
  · exact h.2.1

theorem room (h : Fits bases id x) (hmain : bases 1 = l.interruptStack) :
    (bases id).toNat+x.frameSize+28 ≤ (x.kernelEsp l.tss).toNat ∧
    (x.kernelEsp l.tss).toNat ≤ (bases id).toNat+stackSize.toNat := by
  have htop := l.esp0_toNat
  unfold Fits at h
  rw [x.frameSize_eq,Context.kernelEsp]
  split_ifs at h with hid
  · subst hid
    simp only [h,hmain,stackSize,UInt32.reduceToNat]
    simp
    omega
  · obtain ⟨hcs,-,hlow,hhigh⟩ := h
    rw [hcs,if_pos ring_kernelCode,if_pos ring_kernelCode]
    omega

theorem frame_subset (h : Fits bases id x) (hmain : bases 1 = l.interruptStack) {m : Memory} {sp : UInt32}
    (hsaved : Saved m sp l.tss x) : span sp x.frameSize ⊆ stackOf bases id := by
  obtain ⟨hlow,hhigh⟩ := h.room (l := l) hmain
  have hplace := hsaved.place
  rintro b ⟨hge,hlt⟩
  exact ⟨by omega,by omega⟩

end Fits

theorem System.contextOf_running {l : Layout} {s : System} {id : ℕ} (hid : id = s.kernel.running) :
    s.contextOf l id = some s.cpu.toContext := if_pos hid

theorem System.contextOf_saved {l : Layout} {s : System} {id : ℕ} {sp : UInt32} {x : Context}
    (hid : id ≠ s.kernel.running) (hsp : s.kernel.saved id = some sp) (h : Saved s.cpu.memory sp l.tss x) :
    s.contextOf l id = some x := by
  rw [contextOf,if_neg hid,hsp,Option.map_some,h.suspended_eq ring_kernelCode]

theorem System.contextOf_none {l : Layout} {s : System} {id : ℕ} (hid : id ≠ s.kernel.running)
    (hnone : s.kernel.saved id = none) : s.contextOf l id = none := by
  rw [contextOf,if_neg hid,hnone,Option.map_none]

theorem System.contextOf_isSome (l : Layout) (s : System) {id : ℕ} (hid : id ≠ s.kernel.running) :
    (if (s.kernel.saved id).isSome then s.contextOf l id else none) = s.contextOf l id := by
  cases hsp : s.kernel.saved id with
  | none => exact (contextOf_none hid hsp).symm
  | some sp => rfl

theorem Kernel.live_running (k : Kernel) : k.Live k.running := Or.inl rfl

namespace Placed

variable {l : Layout} {s t : System}

theorem foreign_apart (h : Placed l s) : Disjoint (foreign s.bases s.kernel) (stackOf s.bases s.kernel.running) := by
  rw [Set.disjoint_left]
  rintro b ⟨id,hid,hlive,hb⟩ hb'
  exact Set.disjoint_left.mp (h.apart id _ hlive s.kernel.live_running hid) hb hb'

theorem foreign_subset (h : Placed l s) : foreign s.bases s.kernel ⊆ (stackOf s.bases s.kernel.running)ᶜ :=
  fun _ hb hb' => Set.disjoint_left.mp h.foreign_apart hb hb'

theorem foreign_low (h : Placed l s) {b : UInt32} (hb : b ∈ foreign s.bases s.kernel) :
    b.toNat < Paging.userSpaceStart.toNat := by
  obtain ⟨id,-,hlive,-,hlt⟩ := hb
  exact hlt.trans_le (h.low id hlive)

theorem waiting (h : Placed l s) {m : Memory} (hagree : AgreeOn (foreign s.bases s.kernel) s.cpu.memory m) {id : ℕ}
    {sp : UInt32} (hid : id ≠ s.kernel.running) (hsp : s.kernel.saved id = some sp) :
    ∃ x, Saved m sp l.tss x ∧ Fits s.bases id x ∧ s.contextOf l id = some x := by
  obtain ⟨x,hsaved,hfits⟩ := h.saved id sp hid hsp
  have hlive : s.kernel.Live id := Or.inr (by rw [hsp]; rfl)
  refine ⟨x,hsaved.congr (hagree.mono fun b hb => ?_),hfits,System.contextOf_saved hid hsp hsaved⟩
  exact ⟨id,hid,hlive,hfits.frame_subset h.main hsaved hb⟩

theorem user_runs (h : Placed l s) (hring : ring s.cpu.cs ≠ 0) :
    s.kernel.running = 1 ∧ Fits s.bases s.kernel.running s.cpu.toContext := by
  have hfits := h.runs.resolve_left fun hboot => hring (by rw [hboot.code]; rfl)
  refine ⟨?_,hfits⟩
  by_contra hne
  rw [Fits,if_neg hne] at hfits
  exact hring (by rw [hfits.1]; rfl)

theorem kernel_code (h : Placed l s) (hring : ring s.cpu.cs = 0) : s.cpu.cs = kernelCode := by
  rcases h.runs with hboot | hfits
  · exact hboot.code
  · unfold Fits at hfits
    split_ifs at hfits
    · simp [hring] at hfits
    · exact hfits.1

/-- What a thread does by itself stays within its own stack, or in user space. -/
theorem works (h : Placed l s) {c : Cpu} (hworks : s.Works l c) :
    AgreeOn (foreign s.bases s.kernel) s.cpu.memory c.memory ∧
    (Booting s ∧ Booting { s with cpu := c } ∨ Fits s.bases s.kernel.running c.toContext) := by
  unfold System.Works at hworks
  split_ifs at hworks with hring hmain
  · obtain ⟨hcs,hss,hmemory,hmasked⟩ := hworks
    have hboot : Booting s := h.runs.resolve_right fun hfits => by simp [Fits,hmain,hring] at hfits
    exact ⟨hmemory,Or.inl ⟨hboot,hboot.running,hcs.trans hboot.code,hss.trans hboot.data,hmasked,hboot.untracked⟩⟩
  · obtain ⟨hcs,hss,hmemory,hesp⟩ := hworks
    have hfits := h.runs.resolve_left fun hboot => hmain hboot.running
    rw [Fits,if_neg hmain] at hfits
    refine ⟨hmemory,Or.inr ?_⟩
    rw [Fits,if_neg hmain]
    exact ⟨hcs.trans hfits.1,hss.trans hfits.2.1,hesp⟩
  · obtain ⟨hcs,hmemory⟩ := hworks
    obtain ⟨hmain,-⟩ := h.user_runs hring
    refine ⟨hmemory.mono fun b hb huser => ?_,Or.inr (by rw [Fits,if_pos hmain]; exact hcs)⟩
    exact absurd ((Paging.userAccessible_iff l.place).mp huser).1 (not_le.mpr (h.foreign_low hb))

end Placed

namespace Good

variable {l : Layout} {s t : System}

/-- The running thread goes on, or boot does, and of the threads that wait none changes. -/
theorem stay (h : Good l s) (hinv : Invariant t.kernel.sched) (hbases : t.bases = s.bases)
    (hrun : t.kernel.running = s.kernel.running) (hagree : AgreeOn (foreign s.bases s.kernel) s.cpu.memory t.cpu.memory)
    (hsaved : ∀ id ≠ s.kernel.running, t.kernel.saved id = s.kernel.saved id ∨ t.kernel.saved id = none)
    (hruns : Booting t ∨ Fits s.bases s.kernel.running t.cpu.toContext) :
    Good l t ∧ ∀ id ≠ s.kernel.running,
      t.contextOf l id = if (t.kernel.saved id).isSome then s.contextOf l id else none := by
  have hsame {id : ℕ} {sp : UInt32} (hid : id ≠ s.kernel.running) (hsp : t.kernel.saved id = some sp) :
      s.kernel.saved id = some sp := by
    rcases hsaved id hid with heq | hnone
    · rwa [heq] at hsp
    · simp [hsp] at hnone
  have hlive {id : ℕ} (hlive : t.kernel.Live id) : s.kernel.Live id := by
    by_cases hid : id = s.kernel.running
    · exact Or.inl hid
    · obtain ⟨sp,hsp⟩ := Option.isSome_iff_exists.mp (hlive.resolve_left (by rwa [hrun]))
      exact Or.inr (by rw [hsame hid hsp]; rfl)
  refine ⟨⟨⟨by rw [hbases,h.main],?_,?_,?_,?_⟩,hinv⟩,?_⟩
  · rw [hbases]
    exact fun id hid => h.low id (hlive hid)
  · rw [hbases]
    exact fun id id' hid hid' => h.apart id id' (hlive hid) (hlive hid')
  · rwa [hbases,hrun]
  · rw [hbases,hrun]
    intro id sp hid hsp
    obtain ⟨x,hx,hfits,-⟩ := h.waiting hagree hid (hsame hid hsp)
    exact ⟨x,hx,hfits⟩
  · intro id hid
    have hid' : id ≠ t.kernel.running := by rwa [hrun]
    cases hsp : t.kernel.saved id with
    | none => exact System.contextOf_none hid' hsp
    | some sp =>
      obtain ⟨x,hx,-,hctx⟩ := h.waiting hagree hid (hsame hid hsp)
      rw [System.contextOf_saved hid' hsp hx,hctx]
      rfl

/-- The interrupted thread is left with its frame, or without one, and another thread with a
saved pointer, or the same one, is resumed. -/
theorem switch (h : Good l s) (hfits : Fits s.bases s.kernel.running s.cpu.toContext) {k : Kernel} {c : Cpu}
    {own : Option UInt32} (hinv : Invariant k.sched)
    (hagree : AgreeOn (foreign s.bases s.kernel) s.cpu.memory c.memory)
    (hsaved : ∀ id, k.saved id = if id = s.kernel.running then own else s.kernel.saved id)
    (hown : ∀ sp, own = some sp → Saved c.memory sp l.tss s.cpu.toContext)
    (hnext : k.saved k.running = some (c.regs .esp)) (hcs : ring c.cs = 0) (hss : c.ss = l.tss.ss0) :
    Good l ⟨c.popad.iretd,k,s.bases⟩ ∧
    System.threads l ⟨c.popad.iretd,k,s.bases⟩ =
      (if own.isSome then s.threads l else (s.threads l).stop s.kernel.running).switch k.running := by
  have hheld {id : ℕ} {sp : UInt32} (hsp : k.saved id = some sp) :
      ∃ x, Saved c.memory sp l.tss x ∧ Fits s.bases id x ∧ s.contextOf l id = some x := by
    rw [hsaved] at hsp
    split_ifs at hsp with hid
    · subst hid
      exact ⟨_,hown sp hsp,hfits,s.contextOf_running rfl⟩
    · exact h.waiting hagree hid hsp
  have hlive {id : ℕ} (hlive : k.Live id) : s.kernel.Live id := by
    have hsome : (k.saved id).isSome := by
      rcases hlive with rfl | hsome
      · rw [hnext]
        rfl
      · exact hsome
    rw [hsaved] at hsome
    split_ifs at hsome with hid
    · exact Or.inl hid
    · exact Or.inr hsome
  obtain ⟨x,hx,hxfits,hxctx⟩ := hheld hnext
  have hresumed : c.popad.iretd = { c with toContext := x } := hx.resumed hcs hss
  have hmemory : c.popad.iretd.memory = c.memory := by rw [hresumed]
  have hcontext : c.popad.iretd.toContext = x := by rw [hresumed]
  refine ⟨⟨⟨h.main,fun id hid => h.low id (hlive hid),fun id id' hid hid' => h.apart id id' (hlive hid) (hlive hid'),
    Or.inr (by rw [hcontext]; exact hxfits),?_⟩,hinv⟩,?_⟩
  · intro id sp hid hsp
    obtain ⟨y,hy,hyfits,-⟩ := hheld hsp
    exact ⟨y,by rwa [hmemory],hyfits⟩
  · have hctx (id : ℕ) : System.contextOf l ⟨c.popad.iretd,k,s.bases⟩ id =
        if (k.saved id).isSome then s.contextOf l id else none := by
      by_cases hid : id = k.running
      · rw [System.contextOf_running hid,hid,hnext,hxctx,hcontext]
        rfl
      cases hsp : k.saved id with
      | none => exact System.contextOf_none hid hsp
      | some sp =>
        obtain ⟨y,hy,-,hyctx⟩ := hheld hsp
        rw [System.contextOf_saved (x := y) hid hsp (by rwa [hmemory]),hyctx]
        rfl
    have hgone {id : ℕ} (hid : id ≠ s.kernel.running) (hnone : k.saved id = none) : s.contextOf l id = none := by
      rw [hsaved,if_neg hid] at hnone
      exact System.contextOf_none hid hnone
    refine Threads.ext (by cases own <;> rfl) ?_
    funext id
    refine (hctx id).trans ?_
    cases hsp : k.saved id with
    | none =>
      by_cases hid : id = s.kernel.running
      · rw [hsaved,if_pos hid] at hsp
        simp [hsp,hid,Threads.stop,Threads.switch,System.threads]
      · have hnone := hgone hid hsp
        cases own <;> simp [Threads.stop,Threads.switch,System.threads,hid,hnone]
    | some sp =>
      cases own with
      | some esp => rfl
      | none =>
        have hid : id ≠ s.kernel.running := by
          rintro rfl
          simp [hsaved] at hsp
        simp [Threads.stop,Threads.switch,System.threads,hid]

end Good

/-- A handler that has pushed all registers: its frame lies in the stack of the interrupted thread,
with room below it, and nothing is written elsewhere. -/
structure Entered (l : Layout) (s : System) (d : Cpu) : Prop where
  low : (s.bases s.kernel.running).toNat+28 ≤ (d.regs .esp).toNat
  high : (d.regs .esp).toNat+s.cpu.frameSize ≤ (s.bases s.kernel.running).toNat+stackSize.toNat
  memory : AgreeOn (stackOf s.bases s.kernel.running)ᶜ s.cpu.memory d.memory
  regs : ∀ r, r ≠ .esp → d.regs r = s.cpu.regs r
  code : ring d.cs = 0
  data : d.ss = l.tss.ss0

namespace Good

variable {l : Layout} {s t : System} {c d r : Cpu}

theorem entered (h : Good l s) (hfits : Fits s.bases s.kernel.running s.cpu.toContext)
    (hctx : c.toContext = s.cpu.toContext) (hmem : c.memory = s.cpu.memory) (handler : UInt32) (code : Option UInt32)
    (hcode : code = none ∨ s.kernel.running = 1) :
    (c.onKernelStack l.tss).Grown (c.enter l.tss (gate handler) code).pushad (c.frameSize+4*code.toList.length)
      (c.pushadWords ((c.enter l.tss (gate handler) code).regs .esp)++(code.toList++c.trapFrame)) ∧
    Entered l s (c.enter l.tss (gate handler) code).pushad := by
  obtain ⟨hlow,hhigh⟩ := hfits.room (l := l) h.main
  rw [← hctx] at hlow hhigh
  have hroom : (s.bases s.kernel.running).toNat+c.frameSize+4*code.toList.length+28 ≤ (c.kernelEsp l.tss).toNat := by
    rcases hcode with rfl | hmain
    · simpa using hlow
    · have hring : ring c.cs = 3 := by
        rw [hctx]
        simpa [Fits,hmain] using hfits
      have htop := l.esp0_toNat
      have hlen : code.toList.length ≤ 1 := by cases code <;> simp
      simp only [hmain,h.main,c.frameSize_eq,Context.kernelEsp,hring]
      simp
      omega
  have hgrown := c.enter_pushad l.tss (gate handler) code (by omega)
  have hesp := hgrown.esp
  have hbase : (c.onKernelStack l.tss).regs .esp = c.kernelEsp l.tss := by simp [Cpu.onKernelStack,Cpu.set]
  rw [hbase] at hesp
  refine ⟨hgrown,by omega,by rw [← hctx]; omega,?_,fun r hr => ?_,ring_kernelCode,?_⟩
  · rw [← hmem]
    refine hgrown.memory.mono fun b hb hb' => hb ⟨?_,?_⟩
    · have := hb'.1
      omega
    · have := hb'.2
      omega
  · rw [hgrown.regs r hr,← hctx]
    simp [Cpu.onKernelStack,Cpu.set,hr]
  · change (if ring c.cs = 0 then c.ss else l.tss.ss0) = _
    split_ifs with hring
    · rw [hctx] at hring ⊢
      exact hfits.segment hring
    · rfl

/-- A call from the handler, with its arguments: it finds them, and comes back with the frame and
the other stacks unchanged. -/
theorem called (h : Good l s) (hd : Entered l s d) (hesp : c.regs .esp = d.regs .esp) (hmem : c.memory = d.memory)
    (hcs : c.cs = d.cs) (hss : c.ss = d.ss) (args : List UInt32) (hlen : 4*args.length ≤ 28)
    (hreturns : Returns (kept s.bases s.kernel ((c.pushes args.reverse).regs .esp+UInt32.ofNat (4*args.length)))
      (c.pushes args.reverse) r) :
    (∀ i w, args[i]? = some w → arg (c.pushes args.reverse) i = w) ∧
    AgreeOn (stackOf s.bases s.kernel.running)ᶜ d.memory (c.pushes args.reverse).memory ∧
    r.regs .esp+UInt32.ofNat (4*args.length) = d.regs .esp ∧
    AgreeOn (kept s.bases s.kernel (d.regs .esp)) d.memory r.memory ∧ ring r.cs = 0 ∧ r.ss = l.tss.ss0 := by
  have hlow := hd.low
  have hhigh := hd.high
  have hgrown := c.pushes_grown args.reverse [] trivial (by rw [List.length_reverse,hesp]; omega)
    (by simpa using UInt32.toNat_lt _)
  simp only [List.length_reverse,List.reverse_reverse,List.append_nil] at hgrown
  have hplace := hgrown.esp
  rw [hesp] at hplace
  have hback : (c.pushes args.reverse).regs .esp+UInt32.ofNat (4*args.length) = d.regs .esp := by
    have hsmall : (UInt32.ofNat (4*args.length)).toNat = 4*args.length :=
      UInt32.toNat_ofNat_of_lt' (by change 4*args.length < 2^32; omega)
    apply UInt32.toNat_inj.mp
    have := (d.regs .esp).toNat_lt
    rw [toNat_add] <;> rw [hsmall] <;> omega
  rw [hback] at hreturns
  have hsize := s.cpu.frameSize_eq
  have hinside : span ((c.pushes args.reverse).regs .esp) (4*args.length) ⊆ stackOf s.bases s.kernel.running := by
    rintro b ⟨hge,hlt⟩
    exact ⟨by omega,by omega⟩
  refine ⟨fun i w hw => hgrown.words.get hw,?_,?_,?_,?_,?_⟩
  · rw [← hmem]
    exact hgrown.memory.mono fun b hb hb' => hb (hinside hb')
  · rw [hreturns.regs .esp (by decide) (by decide) (by decide),hback]
  · refine AgreeOn.trans ?_ hreturns.memory
    rw [← hmem]
    refine hgrown.memory.mono fun b hb hb' => ?_
    rcases hb with hb | ⟨-,hb⟩
    · exact h.foreign_subset hb (hinside hb')
    · have := hb'.2
      omega
  · rw [hreturns.cs]
    change ring c.cs = 0
    rw [hcs]
    exact hd.code
  · rw [hreturns.ss]
    exact hss.trans hd.data

theorem frame_kept (h : Good l s) {sp : UInt32} {x : Context} {m : Memory} (hfits : Fits s.bases s.kernel.running x)
    (hsaved : Saved m sp l.tss x) : span sp x.frameSize ⊆ kept s.bases s.kernel sp :=
  fun _ hb => Or.inr ⟨hfits.frame_subset h.main hsaved hb,hb.1⟩

theorem entered_saved (h : Good l s) (hfits : Fits s.bases s.kernel.running s.cpu.toContext) (handler : UInt32) :
    Saved (s.cpu.enter l.tss (gate handler) none).pushad.memory
      ((s.cpu.enter l.tss (gate handler) none).pushad.regs .esp) l.tss s.cpu.toContext ∧
    Entered l s (s.cpu.enter l.tss (gate handler) none).pushad := by
  obtain ⟨hgrown,hentered⟩ := h.entered hfits rfl rfl handler none (Or.inl rfl)
  exact ⟨hgrown.saved hfits.segment,hentered⟩

theorem not_booting_of_interrupt (h : Good l s) (hflag : s.cpu.eflags &&& interruptFlag ≠ 0) :
    Fits s.bases s.kernel.running s.cpu.toContext :=
  h.runs.resolve_left fun hboot => hflag hboot.masked

theorem selected_saved {k : Kernel} {m : TaskManager} {lastEsp created : ℕ → Option UInt32}
    {registered : List (ℕ × String)} {call : Except Panic (UInt32 × TaskManager)} {idx : ℕ} {task : Task}
    (hswitch : Switches m registered lastEsp created call idx task)
    (hmanager : k.sched.manager = { m with currentTaskIdx := idx }) (hrunning : k.sched.running = task.id) :
    k.saved k.running = some task.stackPtr := by
  rw [Kernel.saved,Kernel.running,hmanager,hrunning]
  exact pointers_of_mem hswitch.parked.ids_nodup (List.mem_of_getElem? hswitch.selected)

open Classical in
/-- A tick leaves every thread with its context, but for a condemned one that it drops. -/
theorem timer (h : Good l s) (hstep : Step l s .timer t) : Good l t ∧ t.threads l =
    (if Condemned s.kernel.sched then (s.threads l).stop s.kernel.running else s.threads l).switch
      t.kernel.running := by
  obtain ⟨hflag,hbases,hexec⟩ := hstep
  have hfits := h.not_booting_of_interrupt hflag
  obtain ⟨hframe,hentered⟩ := h.entered_saved hfits l.timer
  obtain ⟨r,flags,-,hcall,hcpu⟩ := timerInterruptWrapper_exec.mp hexec
  generalize (s.cpu.enter l.tss (gate l.timer) none).pushad = d at hframe hentered hcall
  obtain ⟨sp,after,hreturn,hsched,-,-,heax,hreturns⟩ := hcall
  obtain ⟨hargs,-,-,hagree,hcs,hss⟩ := h.called hentered rfl rfl rfl rfl [d.regs .esp] (by simp) hreturns
  have harg : arg (d.pushes [d.regs .esp]) 0 = d.regs .esp := hargs 0 _ rfl
  rw [harg] at hreturn hsched
  obtain ⟨idx,task,hswitch,hmanager,hrunning⟩ := h.sched.call_scheduleNext hsched
  have hsp : sp = task.stackPtr := (Prod.mk.inj (Except.ok.inj (hreturn.symm.trans hswitch.returns))).1
  have hsaved (id : ℕ) : t.kernel.saved id = if id = s.kernel.running then
      (if Condemned s.kernel.sched then none else some (d.regs .esp)) else s.kernel.saved id := by
    rw [Kernel.saved,hmanager]
    exact h.sched.pointers_tick (d.regs .esp) id
  have hown (esp : UInt32) (hesp : (if Condemned s.kernel.sched then none else some (d.regs .esp)) = some esp) :
      Saved r.memory esp l.tss s.cpu.toContext := by
    split_ifs at hesp
    rw [← Option.some.inj hesp]
    exact hframe.congr (hagree.mono (h.frame_kept hfits hframe))
  have hgo := h.switch hfits (c := { r with eflags := flags }.set .esp (r.regs .eax)) (h.sched.call hsched)
    ((hentered.memory.mono h.foreign_subset).trans (hagree.mono Set.subset_union_left)) hsaved hown
    (by rw [selected_saved hswitch hmanager hrunning,Cpu.set_regs,Function.update_self,heax,hsp]) hcs hss
  rw [← hcpu,← hbases] at hgo
  refine ⟨hgo.1,hgo.2.trans ?_⟩
  split_ifs <;> simp_all

theorem fault_entered (h : Good l s) (hring : ring s.cpu.cs ≠ 0) (address code : UInt32) :
    ∃ d, ({ s.cpu with cr2 := address }.enter l.tss (gate l.pageFault) (some code)).pushad = d ∧ Entered l s d ∧
      d.cr2 = address ∧ read d.memory (d.regs .esp+32) = code := by
  obtain ⟨hmain,hfits⟩ := h.user_runs hring
  obtain ⟨hgrown,hentered⟩ := h.entered hfits (c := { s.cpu with cr2 := address }) rfl rfl l.pageFault (some code)
    (Or.inr hmain)
  have hword := hgrown.words.get (i := 8) (w := code) (by simp [Context.pushadWords])
  exact ⟨_,rfl,hentered,rfl,hword⟩

theorem fault_called (h : Good l s) (hd : Entered l s d) {address code : UInt32}
    (hreturns : Returns (kept s.bases s.kernel (((faultArguments d).pushes [code,address,d.regs .esp]).regs .esp+12))
      ((faultArguments d).pushes [code,address,d.regs .esp]) r) :
    (arg ((faultArguments d).pushes [code,address,d.regs .esp]) 0 = d.regs .esp ∧
      arg ((faultArguments d).pushes [code,address,d.regs .esp]) 1 = address ∧
      arg ((faultArguments d).pushes [code,address,d.regs .esp]) 2 = code) ∧
    AgreeOn (kept s.bases s.kernel (d.regs .esp)) d.memory r.memory ∧ ring r.cs = 0 ∧ r.ss = l.tss.ss0 := by
  obtain ⟨hargs,-,-,hagree,hcs,hss⟩ := h.called hd
    (c := faultArguments d) (by simp [faultArguments]) rfl rfl rfl [d.regs .esp,address,code] (by simp) hreturns
  exact ⟨⟨hargs 0 _ rfl,hargs 1 _ rfl,hargs 2 _ rfl⟩,hagree,hcs,hss⟩

theorem fault_result {k : Kernel} {esp : UInt32} (address : UInt32) {code : UInt32} (hcode : code &&& 4 ≠ 0)
    {m : TaskManager} {lastEsp created : ℕ → Option UInt32} {registered : List (ℕ × String)} {idx : ℕ} {task : Task}
    (hswitch : Switches m registered lastEsp created (k.sched.manager.terminateCurrentUserTaskFromFault esp) idx task) :
    Syscalls.pageFaultDispatcher k.statics esp address code =
      .ok (task.stackPtr,{ k.statics.serialPrintln ("EXCEPTION: USER".toList++Syscalls.faultReport address code) with
        manager := { m with currentTaskIdx := idx } }) := by
  have hcall := hswitch.returns
  rw [Syscalls.pageFaultDispatcher,if_pos hcode]
  simp only [Syscalls.Kernel.serialPrintln,Kernel.statics,hcall,bind,Except.bind]

/-- A page fault of the initial thread drops that thread and no other. -/
theorem pageFault (h : Good l s) {address code : UInt32} (hstep : Step l s (.pageFault address code) t) :
    Good l t ∧ t.threads l = ((s.threads l).stop s.kernel.running).switch t.kernel.running ∧
    t.kernel.serial = s.kernel.serial++("EXCEPTION: USER".toList++Syscalls.faultReport address code)++['\n'] := by
  obtain ⟨hring,hcode,hbases,hexec⟩ := hstep
  obtain ⟨-,hfits⟩ := h.user_runs hring
  obtain ⟨d,hd,hentered,hcr2,hread⟩ := h.fault_entered hring address code
  obtain ⟨r,flags,-,hcall,hcpu⟩ := pageFaultWrapper_exec.mp hexec
  rw [hd,hcr2,hread] at hcall
  obtain ⟨sp,hreturn,hsched,heax,hreturns⟩ := hcall
  obtain ⟨hargs,hagree,hcs,hss⟩ := h.fault_called hentered hreturns
  rw [hargs.1] at hreturn hsched
  rw [hargs.2.1,hargs.2.2] at hreturn
  obtain ⟨-,idx,task,hswitch,hmanager,hrunning⟩ := h.sched.call_terminateFromFault hsched
  obtain ⟨hsp,hstatics⟩ := Prod.mk.inj (Except.ok.inj (hreturn.symm.trans (fault_result address hcode hswitch)))
  have hsaved (id : ℕ) : t.kernel.saved id = if id = s.kernel.running then none else s.kernel.saved id := by
    rw [Kernel.saved,hmanager]
    exact h.sched.pointers_fault (d.regs .esp) id
  have hgo := h.switch hfits (c := { r with eflags := flags }.set .esp (r.regs .eax)) (h.sched.call hsched)
    ((hentered.memory.mono h.foreign_subset).trans (hagree.mono Set.subset_union_left)) hsaved (by simp)
    (by rw [selected_saved hswitch hmanager hrunning,Cpu.set_regs,Function.update_self,heax,hsp]) hcs hss
  rw [← hcpu,← hbases] at hgo
  exact ⟨hgo.1,hgo.2,congrArg Syscalls.Kernel.serial hstatics⟩

theorem threads_set (hrun : t.kernel.running = s.kernel.running)
    (hctx : ∀ id ≠ s.kernel.running, t.contextOf l id = s.contextOf l id) :
    t.threads l = (s.threads l).set t.cpu.toContext := by
  refine Threads.ext hrun ?_
  funext id
  by_cases hid : id = s.kernel.running
  · refine (t.contextOf_running (hid.trans hrun.symm)).trans ?_
    rw [hid]
    exact Threads.set_context_self.symm
  · rw [Threads.set_context_of_ne hid]
    exact hctx id hid

theorem stay_all (h : Good l s) (hinv : Invariant t.kernel.sched) (hbases : t.bases = s.bases)
    (hrun : t.kernel.running = s.kernel.running) (hagree : AgreeOn (foreign s.bases s.kernel) s.cpu.memory t.cpu.memory)
    (hsaved : ∀ id ≠ s.kernel.running, t.kernel.saved id = s.kernel.saved id)
    (hruns : Booting t ∨ Fits s.bases s.kernel.running t.cpu.toContext) :
    Good l t ∧ t.threads l = (s.threads l).set t.cpu.toContext := by
  obtain ⟨hgood,hctx⟩ := h.stay hinv hbases hrun hagree (fun id hid => Or.inl (hsaved id hid)) hruns
  refine ⟨hgood,threads_set hrun fun id hid => ?_⟩
  rw [hctx id hid,hsaved id hid,s.contextOf_isSome l hid]

theorem afterSyscall (h : Good l s) (memory : Memory) (number arg1 arg2 arg3 arg4 arg5 esp : UInt32) :
    let answer := Syscalls.syscallDispatcher s.kernel.statics memory number arg1 arg2 arg3 arg4 arg5 esp
    Invariant (s.kernel.afterSyscall answer.2 esp).sched ∧
    ∀ id ≠ s.kernel.running, (s.kernel.afterSyscall answer.2 esp).saved id = s.kernel.saved id := by
  intro answer
  rcases Syscalls.syscallDispatcher_manager s.kernel.statics memory number arg1 arg2 arg3 arg4 arg5 esp with
    hsame | ⟨ticks,hsleep⟩
  · have hsched : (s.kernel.afterSyscall answer.2 esp).sched = s.kernel.sched := by
      simp only [Kernel.afterSyscall,answer,hsame]
      simp [Kernel.statics,Traced.noteMain]
    rw [hsched]
    exact ⟨h.sched,fun id _ => by rw [Kernel.saved,Kernel.saved,hsched]⟩
  · have hsched : (s.kernel.afterSyscall answer.2 esp).sched = { s.kernel.sched with
        manager := (s.kernel.sched.manager.sleepCurrentTask esp ticks).2
        created := s.kernel.sched.noteMain (s.kernel.sched.manager.sleepCurrentTask esp ticks).2 esp } := by
      simp only [Kernel.afterSyscall,answer,hsleep]
      rfl
    refine ⟨by rw [hsched]; exact h.sched.sleepCurrentTask esp ticks,fun id hid => ?_⟩
    rw [Kernel.saved,hsched]
    exact h.sched.pointers_sleep esp ticks hid

theorem stores_eax (h : Good l s) (hd : Entered l s d) (m : Memory) (x : UInt32) :
    AgreeOn (stackOf s.bases s.kernel.running)ᶜ m (write m (d.regs .esp+28) x) := by
  have hsize := s.cpu.frameSize_eq
  have hhigh := hd.high
  have hlow := hd.low
  have htop := h.low _ s.kernel.live_running
  simp only [Paging.userSpaceStart,UInt32.reduceToNat] at htop
  have hslot : (d.regs .esp+28).toNat = (d.regs .esp).toNat+28 := toNat_add (by simp only [UInt32.reduceToNat]; omega)
  refine agreeOn_write (by split_ifs at hsize <;> omega) (Set.disjoint_left.mpr fun b hb hb' => hb ?_)
  obtain ⟨hge,hlt⟩ := hb'
  exact ⟨by omega,by split_ifs at hsize <;> omega⟩

/-- A system call returns to its caller, who finds the answer to its own registers and memory in
`eax` and nothing else changed. -/
theorem syscall (h : Good l s) (hstep : Step l s .syscall t) : Good l t ∧ ∃ esp,
    let answer := Syscalls.syscallDispatcher s.kernel.statics s.cpu.memory (s.cpu.regs .eax) (s.cpu.regs .ebx)
      (s.cpu.regs .ecx) (s.cpu.regs .edx) (s.cpu.regs .esi) (s.cpu.regs .edi) esp
    t.threads l = (s.threads l).set { s.cpu.toContext with regs := Function.update s.cpu.regs .eax answer.1 } ∧
    t.kernel.statics = answer.2 := by
  obtain ⟨hring,hbases,hexec⟩ := hstep
  obtain ⟨hmain,hfits⟩ := h.user_runs hring
  obtain ⟨hframe,hentered⟩ := h.entered_saved hfits l.syscall
  obtain ⟨r,flags,-,hcall,hcpu⟩ := syscallWrapper_exec.mp hexec
  generalize (s.cpu.enter l.tss (gate l.syscall) none).pushad = d at hframe hentered hcall
  have horder : [.esp,.edi,.esi,.edx,.ecx,.ebx,.eax].map d.regs =
      ([.eax,.ebx,.ecx,.edx,.esi,.edi,.esp].map d.regs).reverse := by simp
  rw [horder] at hcall
  generalize hargs : [.eax,.ebx,.ecx,.edx,.esi,.edi,.esp].map d.regs = args at hcall
  have hlen : args.length = 7 := by rw [← hargs]; rfl
  obtain ⟨hkernel,heax,hreturns⟩ := hcall
  obtain ⟨hfound,hpushed,hesp,hagree,hcs,hss⟩ := h.called hentered (c := d.set .ebp (d.regs .esp)) (by simp) rfl rfl rfl
    args (by omega) (by rw [hlen]; exact hreturns)
  generalize (d.set .ebp (d.regs .esp)).pushes args.reverse = e at hkernel heax hfound hpushed
  have hmemory : AgreeOn {b | Paging.userSpaceStart.toNat ≤ b.toNat ∧ b.toNat < Paging.userSpaceEnd.toNat}
      e.memory s.cpu.memory := by
    refine ((hentered.memory.trans hpushed).mono fun b hb hb' => ?_).symm
    have hlow := h.low _ s.kernel.live_running
    exact absurd hb.1 (not_le.mpr (hb'.2.trans_le hlow))
  have hlist : args = [s.cpu.regs .eax,s.cpu.regs .ebx,s.cpu.regs .ecx,s.cpu.regs .edx,s.cpu.regs .esi,s.cpu.regs .edi,
      d.regs .esp] := by
    rw [← hargs]
    simp [hentered.regs]
  rw [hlist] at hfound
  have hanswer : Syscalls.syscallDispatcher s.kernel.statics e.memory (arg e 0) (arg e 1) (arg e 2) (arg e 3) (arg e 4)
      (arg e 5) (arg e 6) = Syscalls.syscallDispatcher s.kernel.statics s.cpu.memory (s.cpu.regs .eax) (s.cpu.regs .ebx)
      (s.cpu.regs .ecx) (s.cpu.regs .edx) (s.cpu.regs .esi) (s.cpu.regs .edi) (d.regs .esp) := by
    rw [Syscalls.syscallDispatcher_congr hmemory,hfound 0 _ rfl,hfound 1 _ rfl,hfound 2 _ rfl,hfound 3 _ rfl,
      hfound 4 _ rfl,hfound 5 _ rfl,hfound 6 _ rfl]
  rw [hanswer,hfound 6 _ rfl] at hkernel
  rw [hanswer] at heax
  rw [hlen] at hesp
  have hback : r.regs .esp+28 = d.regs .esp := hesp
  rw [hback] at hcpu
  have hsaved := (hframe.congr (hagree.mono (h.frame_kept hfits hframe))).storeEax (r.regs .eax)
  have hresumed : t.cpu = _ := hcpu.trans (Saved.resumed (c := Cpu.set _ _ _) (by simpa using hsaved) hcs hss)
  have hcontext : t.cpu.toContext = { s.cpu.toContext with regs := Function.update s.cpu.regs .eax (r.regs .eax) } := by
    rw [hresumed]
  have hstored : t.cpu.memory = write r.memory (d.regs .esp+28) (r.regs .eax) := by
    rw [hresumed]
    rfl
  have hwritten : AgreeOn (foreign s.bases s.kernel) r.memory t.cpu.memory := by
    rw [hstored]
    exact (h.stores_eax hentered r.memory (r.regs .eax)).mono h.foreign_subset
  obtain ⟨hinv,hothers⟩ := h.afterSyscall s.cpu.memory (s.cpu.regs .eax) (s.cpu.regs .ebx) (s.cpu.regs .ecx)
    (s.cpu.regs .edx) (s.cpu.regs .esi) (s.cpu.regs .edi) (d.regs .esp)
  rw [← hkernel] at hinv hothers
  have hstay := h.stay_all hinv hbases (by rw [hkernel]; rfl)
    (((hentered.memory.mono h.foreign_subset).trans (hagree.mono Set.subset_union_left)).trans hwritten) hothers
    (Or.inr (by rw [hcontext]; simpa [Fits,hmain] using hfits))
  exact ⟨hstay.1,d.regs .esp,by rw [hstay.2,hcontext,heax],by rw [hkernel]; rfl⟩

theorem trapped (h : Good l s) (hfits : Fits s.bases s.kernel.running s.cpu.toContext) (handler : UInt32) :
    let d := s.cpu.enter l.tss (gate handler) none
    WordsAt d.memory (d.regs .esp) s.cpu.trapFrame ∧
    (d.regs .esp).toNat+4*s.cpu.trapFrame.length = (s.cpu.kernelEsp l.tss).toNat ∧
    span (d.regs .esp) (4*s.cpu.trapFrame.length) ⊆ stackOf s.bases s.kernel.running ∧
    AgreeOn (stackOf s.bases s.kernel.running)ᶜ s.cpu.memory d.memory ∧
    (∀ r, r ≠ .esp → d.regs r = s.cpu.regs r) ∧ (ring s.cpu.cs = 0 → d.ss = s.cpu.ss) ∧ ring d.cs = 0 := by
  intro d
  obtain ⟨hlow,hhigh⟩ := hfits.room (l := l) h.main
  have hsize : s.cpu.frameSize = 32+4*s.cpu.trapFrame.length := Nat.mul_add 4 8 _
  have hgrown := s.cpu.enter_grown l.tss (gate handler) none (by simp only [Option.toList_none,List.length_nil]; omega)
  simp only [Option.toList_none,List.length_nil,Nat.add_zero,List.nil_append] at hgrown
  have hesp : (d.regs .esp).toNat+_ = _ := hgrown.esp
  have hbase : (s.cpu.onKernelStack l.tss).regs .esp = s.cpu.kernelEsp l.tss := by simp [Cpu.onKernelStack,Cpu.set]
  rw [hbase] at hesp
  have hinside : span (d.regs .esp) (4*s.cpu.trapFrame.length) ⊆ stackOf s.bases s.kernel.running := by
    rintro b ⟨hge,hlt⟩
    exact ⟨by omega,by omega⟩
  refine ⟨hgrown.words,hesp,hinside,hgrown.memory.mono fun b hb hb' => hb (hinside hb'),fun r hr => ?_,
    fun hring => if_pos hring,ring_kernelCode⟩
  rw [hgrown.regs r hr]
  simp [Cpu.onKernelStack,Cpu.set,hr]

theorem keyboard (h : Good l s) (hstep : Step l s .keyboard t) : Good l t ∧ t.threads l = s.threads l := by
  obtain ⟨hflag,hbases,⟨k,r⟩,⟨hkernel,hregs,hreturns⟩,⟨k',d⟩,hiretd,hdone⟩ := hstep
  have hfits := h.not_booting_of_interrupt hflag
  obtain ⟨hwords,hesp,hinside,hmemory,hothers,hss,hcs⟩ := h.trapped hfits l.keyboard
  generalize s.cpu.enter l.tss (gate l.keyboard) none = c at hregs hreturns hwords hesp hinside hmemory hothers hss hcs
  obtain ⟨rfl,rfl⟩ := Prod.mk.inj hiretd
  obtain ⟨rfl,hcpu⟩ := Prod.mk.inj hdone
  have htop := (s.cpu.kernelEsp l.tss).toNat_lt
  have hkept : span (c.regs .esp) (4*s.cpu.trapFrame.length) ⊆ kept s.bases s.kernel (c.regs .esp) :=
    fun b hb => Or.inr ⟨hinside hb,hb.1⟩
  have hframe := hwords.congr (by omega) (hreturns.memory.mono hkept)
  rw [← hregs] at hframe
  have hinner (hring : ring s.cpu.cs = 0) : s.cpu.regs .esp = r.regs .esp+12 ∧ s.cpu.ss = r.ss := by
    refine ⟨?_,by rw [hreturns.ss,hss hring]⟩
    have hlen : s.cpu.trapFrame.length = 3 := by simp [Context.trapFrame,hring]
    rw [hlen,Context.kernelEsp,if_pos hring] at hesp
    have hbound := (s.cpu.regs .esp).toNat_lt
    have hsum : (c.regs .esp+12).toNat = (c.regs .esp).toNat+12 := toNat_add (by simp only [UInt32.reduceToNat]; omega)
    apply UInt32.toNat_inj.mp
    rw [hregs]
    omega
  have hresumed := hcpu.trans (Cpu.iretd_eq hframe (by rw [hreturns.cs,hcs]) hinner)
  have hcontext : t.cpu.toContext = s.cpu.toContext := by
    rw [hresumed]
    refine Context.ext ?_ rfl rfl rfl rfl
    funext reg
    by_cases hreg : reg = .esp
    · simp [hreg]
    · simp [hreg,hregs,hothers reg hreg]
  have hothers' : AgreeOn (foreign s.bases s.kernel) s.cpu.memory t.cpu.memory := by
    rw [hresumed]
    exact (hmemory.mono h.foreign_subset).trans (hreturns.memory.mono Set.subset_union_left)
  have hstay := h.stay_all (t := t) (by rw [hkernel]; exact h.sched) hbases (by rw [hkernel]) hothers'
    (fun id _ => by rw [hkernel]) (Or.inr (by rw [hcontext]; exact hfits))
  refine ⟨hstay.1,hstay.2.trans ?_⟩
  rw [hcontext]
  refine Threads.ext rfl ?_
  exact Function.update_eq_self_iff.mpr (s.contextOf_running rfl).symm

theorem work (h : Good l s) (hstep : Step l s .work t) :
    Good l t ∧ t.threads l = (s.threads l).set t.cpu.toContext := by
  obtain ⟨hkernel,hbases,hworks⟩ := hstep
  obtain ⟨hmemory,hruns⟩ := h.works hworks
  refine h.stay_all (by rw [hkernel]; exact h.sched) hbases (by rw [hkernel]) hmemory (fun id _ => by rw [hkernel]) ?_
  refine hruns.imp_left fun hboot => ?_
  obtain ⟨-,hrun,hcs,hss,hmasked,huntracked⟩ := hboot
  exact ⟨by rw [hkernel]; exact hrun,hcs,hss,hmasked,by rw [hkernel]; exact huntracked⟩

theorem kill (h : Good l s) {pid : ℕ} (hstep : Step l s (.kill pid) t) : Good l t ∧
    (t.threads l = (s.threads l).set t.cpu.toContext ∨
      pid ≠ s.kernel.running ∧ t.threads l = ((s.threads l).set t.cpu.toContext).stop pid) := by
  obtain ⟨-,hmain,hbases,hcall,hworks⟩ := hstep
  obtain ⟨hmemory,hruns⟩ := h.works hworks
  have hfits := hruns.resolve_left fun hboot => hmain hboot.1.running
  have hrun : t.kernel.running = s.kernel.running := hcall.kill.2
  have hinv := h.sched.call hcall
  rcases h.sched.pointers_kill hcall with hsame | ⟨hpid,hgone⟩
  · obtain ⟨hgood,hthreads⟩ := h.stay_all hinv hbases hrun hmemory hsame (Or.inr hfits)
    exact ⟨hgood,Or.inl hthreads⟩
  · have hsaved (id : ℕ) : t.kernel.saved id = if id = pid then none else s.kernel.saved id := by
      rw [Kernel.saved,hgone,Function.update_apply]
      rfl
    obtain ⟨hgood,hctx⟩ := h.stay hinv hbases hrun hmemory
      (fun id _ => by rw [hsaved]; split_ifs <;> simp) (Or.inr hfits)
    refine ⟨hgood,Or.inr ⟨hpid,Threads.ext hrun ?_⟩⟩
    funext id
    by_cases hid : id = pid
    · have hnone := System.contextOf_none (l := l) (s := t) (by rwa [hrun]) ((hsaved pid).trans (if_pos rfl))
      rw [hid]
      exact hnone.trans Threads.stop_context_self.symm
    · rw [Threads.stop_context_of_ne hid]
      by_cases hrunning : id = s.kernel.running
      · refine (t.contextOf_running (hrunning.trans hrun.symm)).trans ?_
        rw [hrunning]
        exact Threads.set_context_self.symm
      · rw [Threads.set_context_of_ne hrunning]
        refine (hctx id hrunning).trans ?_
        rw [hsaved,if_neg hid]
        exact s.contextOf_isSome l hrunning

end Good

/-- The context in which a new thread starts: at its entry point, with a whole stack, interrupts
enabled and all other registers zero. -/
def freshContext (entryPoint stack : UInt32) : Context where
  regs := Function.update (fun _ => 0) .esp (stack+stackSize)
  eip := entryPoint
  eflags := 0x202
  cs := kernelCode
  ss := kernelData

section

variable {stack : UInt32} (hlow : stack.toNat+stackSize.toNat ≤ Paging.userSpaceStart.toNat)
include hlow

theorem stackTop_toNat : (stack+stackSize).toNat = stack.toNat+8192 := by
  simp only [stackSize,UInt32.reduceToNat,Paging.userSpaceStart] at hlow ⊢
  rw [toNat_add] <;> simp only [UInt32.reduceToNat]; omega

theorem newStack_spec (cs entryPoint : UInt32) :
    (newStack cs entryPoint stack).2.toNat = stack.toNat+8148 ∧
    WordsAt (newStack cs entryPoint stack).1 (newStack cs entryPoint stack).2
      (List.replicate 8 0++[entryPoint,cs,0x202]) := by
  have htop := stackTop_toNat hlow
  have hlen : 4*([0x202,cs,entryPoint]++List.replicate 8 0).length = 44 := rfl
  have hbound := (stack+stackSize).toNat_lt
  obtain ⟨hsp,hwords,-⟩ := stored_spec (m := fun _ => 0) (a := stack+stackSize)
    ([0x202,cs,entryPoint]++List.replicate 8 0) [] trivial (by omega) (by rw [List.length_nil]; omega)
  rw [hlen] at hsp
  refine ⟨?_,hwords⟩
  rw [newStack,hsp]
  omega

theorem newStack_pointer (cs entryPoint : UInt32) (id : ℕ) (name : String) :
    (newStack cs entryPoint stack).2 = (Task.new id name .kernel stack).stackPtr := by
  have htop := stackTop_toNat hlow
  have hfirst : (stack+stackSize-4*3).toNat = stack.toNat+8180 := by
    rw [toNat_sub] <;> rw [htop] <;> simp only [UInt32.reduceMul,UInt32.reduceToNat] <;> omega
  apply UInt32.toNat_inj.mp
  rw [(newStack_spec hlow cs entryPoint).1,Task.new,toNat_sub] <;> rw [hfirst] <;>
    simp only [UInt32.reduceMul,UInt32.reduceToNat] <;> omega

theorem newStack_saved (l : Layout) (entryPoint : UInt32) :
    Saved (newStack kernelCode entryPoint stack).1 (newStack kernelCode entryPoint stack).2 l.tss
      (freshContext entryPoint stack) := by
  have htop := stackTop_toNat hlow
  obtain ⟨hsp,hwords⟩ := newStack_spec hlow kernelCode entryPoint
  have hring : ring (freshContext entryPoint stack).cs = 0 := ring_kernelCode
  refine ⟨?_,⟨0,by simpa [freshContext,Context.pushadWords,Context.trapFrame,ring_kernelCode] using hwords⟩,
    fun _ => rfl⟩
  rw [Context.frameSize_eq,Context.kernelEsp,if_pos hring,if_pos hring,hsp]
  simp [freshContext,htop]

end

theorem Fits.congr {bases bases' : ℕ → UInt32} {id : ℕ} {x : Context} (hbase : bases' id = bases id) :
    Fits bases' id x ↔ Fits bases id x := by simp only [Fits,hbase]

theorem freshContext_fits {bases : ℕ → UInt32} {id : ℕ} (hid : id ≠ 1) {stack : UInt32} (hbase : bases id = stack)
    (hlow : stack.toNat+stackSize.toNat ≤ Paging.userSpaceStart.toNat) (entryPoint : UInt32) :
    Fits bases id (freshContext entryPoint stack) := by
  have htop := stackTop_toNat hlow
  have hsize : stackSize.toNat = 8192 := rfl
  rw [Fits,if_neg hid,hbase]
  refine ⟨rfl,rfl,?_⟩
  simp only [freshContext,Function.update_self,InStack,htop]
  omega

theorem Placed.start {l : Layout} {s t : System} (h : Placed l s) {id : ℕ} {stack sp : UInt32} {x : Context}
    (hid : id ≠ 1) (hfresh : ¬ s.kernel.Live id) (hfree : s.Free stack)
    (hbases : t.bases = Function.update s.bases id stack) (hrun : t.kernel.running = s.kernel.running)
    (hsaved : t.kernel.saved = Function.update s.kernel.saved id (some sp))
    (hagree : AgreeOn (foreign s.bases s.kernel) s.cpu.memory t.cpu.memory)
    (hruns : Booting t ∨ Fits s.bases s.kernel.running t.cpu.toContext)
    (hx : Saved t.cpu.memory sp l.tss x) (hxfits : Fits t.bases id x) :
    Placed l t ∧ t.threads l = ((s.threads l).set t.cpu.toContext).start id x := by
  have hlive {other : ℕ} (hlisted : t.kernel.Live other) : other = id ∨ s.kernel.Live other := by
    by_cases heq : other = id
    · exact Or.inl heq
    · right
      rcases hlisted with hrunning | hsome
      · exact Or.inl (hrunning.trans hrun)
      · rw [hsaved,Function.update_of_ne heq] at hsome
        exact Or.inr hsome
  have hne {other : ℕ} (hlisted : s.kernel.Live other) : other ≠ id := by
    rintro rfl
    exact hfresh hlisted
  have hbase {other : ℕ} (hlisted : s.kernel.Live other) : t.bases other = s.bases other := by
    rw [hbases,Function.update_of_ne (hne hlisted)]
  have hnew : t.bases id = stack := by rw [hbases,Function.update_self]
  have hrunning := s.kernel.live_running
  refine ⟨⟨?_,?_,?_,?_,?_⟩,Threads.ext hrun ?_⟩
  · rw [hbases,Function.update_of_ne (Ne.symm hid),h.main]
  · intro other hlisted
    rcases hlive hlisted with rfl | hold
    · rw [hnew]
      exact hfree.1
    · rw [hbase hold]
      exact h.low other hold
  · intro other other' hlisted hlisted' hdiffer
    rcases hlive hlisted with rfl | hold <;> rcases hlive hlisted' with rfl | hold'
    · exact absurd rfl hdiffer
    · rw [stackOf,stackOf,hnew,hbase hold']
      exact hfree.2 other' hold'
    · rw [stackOf,stackOf,hnew,hbase hold]
      exact (hfree.2 other hold).symm
    · rw [stackOf,stackOf,hbase hold,hbase hold']
      exact h.apart other other' hold hold' hdiffer
  · rw [hrun,Fits.congr (hbase hrunning)]
    exact hruns
  · intro other ptr hother hptr
    rw [hrun] at hother
    rw [hsaved,Function.update_apply] at hptr
    split_ifs at hptr with heq
    · subst heq
      rw [← Option.some.inj hptr]
      exact ⟨x,hx,hxfits⟩
    · obtain ⟨y,hy,hyfits,-⟩ := h.waiting hagree hother hptr
      exact ⟨y,hy,(Fits.congr (hbase (Or.inr (by rw [hptr]; rfl)))).mpr hyfits⟩
  · funext other
    by_cases heq : other = id
    · have hwaits : id ≠ t.kernel.running := by
        rw [hrun]
        exact Ne.symm (hne hrunning)
      rw [heq]
      exact (System.contextOf_saved hwaits (by rw [hsaved,Function.update_self]) hx).trans
        Threads.start_context_self.symm
    · rw [Threads.start_context_of_ne heq]
      by_cases hcurrent : other = s.kernel.running
      · refine (t.contextOf_running (hcurrent.trans hrun.symm)).trans ?_
        rw [hcurrent]
        exact Threads.set_context_self.symm
      · have hother : other ≠ t.kernel.running := by rwa [hrun]
        have hsame : t.kernel.saved other = s.kernel.saved other := by rw [hsaved,Function.update_of_ne heq]
        rw [Threads.set_context_of_ne hcurrent]
        cases hptr : s.kernel.saved other with
        | none =>
          exact (System.contextOf_none hother (hsame.trans hptr)).trans (System.contextOf_none hcurrent hptr).symm
        | some ptr =>
          obtain ⟨y,hy,-,hctx⟩ := h.waiting hagree hcurrent hptr
          exact (System.contextOf_saved hother (hsame.trans hptr) hy).trans hctx.symm

theorem Placed.registerNamedTask {l : Layout} {s t : System} (h : Placed l s) {name : String}
    {entryPoint stack : UInt32} (hid : s.kernel.sched.manager.nextTaskId ≠ 1)
    (hlt : ∀ task ∈ s.kernel.sched.manager.tasks, task.id < s.kernel.sched.manager.nextTaskId)
    (hrunning : s.kernel.running < s.kernel.sched.manager.nextTaskId)
    (hstep : Step l s (.registerNamedTask name entryPoint stack) t) : Placed l t ∧
    t.threads l = ((s.threads l).set t.cpu.toContext).start s.kernel.sched.manager.nextTaskId
      (freshContext entryPoint stack) := by
  obtain ⟨hfree,hring,hbases,hcall,hworks,hstack⟩ := hstep
  obtain ⟨hmemory,hruns⟩ := h.works hworks
  obtain ⟨hmanager,hrun⟩ := hcall.register
  have hcs := h.kernel_code hring
  have hsaved : t.kernel.saved = Function.update s.kernel.saved s.kernel.sched.manager.nextTaskId
      (some (newStack kernelCode entryPoint stack).2) := by
    rw [newStack_pointer hfree.1 kernelCode entryPoint s.kernel.sched.manager.nextTaskId name]
    simp only [Kernel.saved,hmanager]
    exact pointers_push fun old hold => (hlt old hold).ne
  have hfresh : ¬ s.kernel.Live s.kernel.sched.manager.nextTaskId := by
    rintro (hsame | hlisted)
    · exact hrunning.ne hsame.symm
    · have hnone : s.kernel.saved s.kernel.sched.manager.nextTaskId = none :=
        pointers_eq_none.mpr fun old hold => (hlt old hold).ne
      simp [hnone] at hlisted
  have hbase : t.bases s.kernel.sched.manager.nextTaskId = stack := by rw [hbases,Function.update_self]
  have hmain : t.bases 1 = l.interruptStack := by rw [hbases,Function.update_of_ne (Ne.symm hid),h.main]
  have hfits := freshContext_fits hid hbase hfree.1 entryPoint
  have hfirst := newStack_saved hfree.1 l entryPoint
  have hframe := hfits.frame_subset hmain hfirst
  rw [stackOf,hbase] at hframe
  rw [hcs] at hstack
  exact h.start hid hfresh hfree hbases hrun hsaved hmemory
    (hruns.imp_left fun hboot => ⟨hrun.trans hboot.2.running,hboot.2.code,hboot.2.data,hboot.2.masked,by
      rw [hmanager]
      exact hboot.1.untracked⟩) (hfirst.congr (hstack.mono hframe)) hfits

namespace Good

variable {l : Layout} {s t : System}

theorem registerNamedTask (h : Good l s) {name : String} {entryPoint stack : UInt32}
    (hstep : Step l s (.registerNamedTask name entryPoint stack) t) : Good l t ∧
    t.threads l = ((s.threads l).set t.cpu.toContext).start s.kernel.sched.manager.nextTaskId
      (freshContext entryPoint stack) := by
  have hnext := h.sched.next_id
  obtain ⟨hplaced,hthreads⟩ := h.toPlaced.registerNamedTask (by omega) (fun task => h.sched.id_lt)
    h.sched.running_lt hstep
  exact ⟨⟨hplaced,h.sched.call hstep.2.2.2.1⟩,hthreads⟩

theorem switchToUserMode (h : Good l s) (hstep : Step l s .switchToUserMode t) :
    Good l t ∧ t.threads l = (s.threads l).set (userContext s.cpu) := by
  obtain ⟨hring,hmain,hbases,hroom,hapart,hexec⟩ := hstep
  obtain ⟨hkernel,hcontext,hmemory⟩ := switchToUserMode_exec hexec hring hroom
  have huser : ring (userContext s.cpu).cs = 3 := by
    change ring 0x1B = 3
    decide
  have hstay := h.stay_all (t := t) (by rw [hkernel]; exact h.sched) hbases (by rw [hkernel])
    (hmemory.mono fun b hb hb' => Set.disjoint_left.mp hapart hb' hb) (fun id _ => by rw [hkernel])
    (Or.inr (by rw [Fits,if_pos hmain,hcontext]; exact huser))
  rwa [hcontext] at hstay

end Good

open Classical in
/-- What an event does to the threads, each seen as having a processor of its own. -/
def Effect (l : Layout) (s : System) (e : Event) (t : System) : Prop :=
  match e with
  | .work => t.threads l = (s.threads l).set t.cpu.toContext
  | .timer => t.threads l =
    (if Condemned s.kernel.sched then (s.threads l).stop s.kernel.running else s.threads l).switch t.kernel.running
  | .keyboard => t.threads l = s.threads l
  | .syscall => ∃ esp,
    let answer := Syscalls.syscallDispatcher s.kernel.statics s.cpu.memory (s.cpu.regs .eax) (s.cpu.regs .ebx)
      (s.cpu.regs .ecx) (s.cpu.regs .edx) (s.cpu.regs .esi) (s.cpu.regs .edi) esp
    t.threads l = (s.threads l).set { s.cpu.toContext with regs := Function.update s.cpu.regs .eax answer.1 } ∧
    t.kernel.statics = answer.2
  | .pageFault address code => t.threads l = ((s.threads l).stop s.kernel.running).switch t.kernel.running ∧
    t.kernel.serial = s.kernel.serial++("EXCEPTION: USER".toList++Syscalls.faultReport address code)++['\n']
  | .kill pid => t.threads l = (s.threads l).set t.cpu.toContext ∨
    pid ≠ s.kernel.running ∧ t.threads l = ((s.threads l).set t.cpu.toContext).stop pid
  | .registerNamedTask _ entryPoint stack => t.threads l =
    ((s.threads l).set t.cpu.toContext).start s.kernel.sched.manager.nextTaskId (freshContext entryPoint stack)
  | .switchToUserMode => t.threads l = (s.threads l).set (userContext s.cpu)

theorem Good.step {l : Layout} {s t : System} {e : Event} (h : Good l s) (hstep : Step l s e t) :
    Good l t ∧ Effect l s e t := by
  cases e with
  | work => exact h.work hstep
  | timer => exact h.timer hstep
  | keyboard => exact h.keyboard hstep
  | syscall => exact h.syscall hstep
  | pageFault address code => exact h.pageFault hstep
  | kill pid => exact h.kill hstep
  | registerNamedTask name entryPoint stack => exact h.registerNamedTask hstep
  | switchToUserMode => exact h.switchToUserMode hstep

end Contexts
end EnosKernel
