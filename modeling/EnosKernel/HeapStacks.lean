import EnosKernel.ContextRuns
import EnosKernel.HeapAllocator

/-! The machine with the kernel heap: stacks are boxes that the heap hands out, so the room that a
new thread needs is free whatever else has been allocated before. -/
namespace EnosKernel
namespace HeapStacks

open Contexts
open HeapAllocator (HeapMemory heapSize Block)

def stackLayout : HeapAllocator.Layout := ⟨8192,1,⟨0,rfl⟩,by decide,by decide⟩

structure Machine where
  system : System
  heap : HeapAllocator.State

/-- An event of the threads, a registration, or any other use of the heap; the box that the first
tick or sleep gets for the placeholder of the initial thread is such a use. -/
inductive Act
  | run (e : Event)
  | register (name : String) (entryPoint : UInt32)
  | heap (op : HeapAllocator.Op)

/-- A registration whose request for a stack fails panics and is no step. -/
def Step (l : Layout) (memory : HeapMemory) (s : Machine) (a : Act) (t : Machine) : Prop :=
  match a with
  | .run e => (∀ name entryPoint stack, e ≠ .registerNamedTask name entryPoint stack) ∧
    Contexts.Step l s.system e t.system ∧ t.heap = s.heap
  | .register name entryPoint => ∃ address offset,
    HeapAllocator.alloc memory stackLayout s.heap.offset = .ok (some address,offset) ∧
    t.heap = s.heap.record stackLayout (some address,offset) ∧
    s.system.Registers l name entryPoint (UInt32.ofNat address) t.system
  | .heap op => HeapAllocator.Step memory s.heap op t.heap ∧ t.system = s.system

def Backed (s : Machine) (id : ℕ) : Prop :=
  ∃ b ∈ s.heap.blocks, b.address = (s.system.bases id).toNat ∧ b.layout.size = 8192

/-- Every stack in use is a box of the heap. -/
structure Housed (memory : HeapMemory) (s : Machine) : Prop where
  heap : HeapAllocator.Invariant memory s.heap
  boxed : ∀ id, s.system.kernel.Live id → Backed s id

/-- The end of boot: the interrupt stack is a box among those that boot has allocated. -/
structure Boot (l : Layout) (memory : HeapMemory) (s : Machine) : Prop where
  system : Contexts.Boot l s.system
  heap : Runs.Reachable (HeapAllocator.Step memory) .start s.heap
  stack : Backed s 1

/-- What is reached from the end of boot, whose first act is to register a thread. -/
def Reached (l : Layout) (memory : HeapMemory) (t : Machine) : Prop :=
  ∃ boot name entryPoint s, Boot l memory boot ∧ Step l memory boot (.register name entryPoint) s ∧
    Runs.Reachable (Step l memory) s t

theorem alloc_some {memory : HeapMemory} {layout : HeapAllocator.Layout} {offset address next : ℕ}
    (hoffset : offset ≤ heapSize) (h : HeapAllocator.alloc memory layout offset = .ok (some address,next)) :
    memory.base+offset ≤ address ∧ address+layout.size ≤ memory.base+heapSize := by
  rw [HeapAllocator.alloc_eq memory layout hoffset] at h
  split_ifs at h with hfit
  · obtain ⟨haddress,-⟩ := Prod.mk.inj (Except.ok.inj h)
    rw [← Option.some.inj haddress]
    exact ⟨MachineArith.le_roundUp _ layout.align_pos,hfit⟩
  · simp at h

theorem alloc_step {memory : HeapMemory} {layout : HeapAllocator.Layout} {s : HeapAllocator.State}
    {result : Option ℕ × ℕ} (h : HeapAllocator.alloc memory layout s.offset = .ok result) :
    HeapAllocator.Step memory s (.alloc layout) (s.record layout result) := by
  rw [HeapAllocator.Step,HeapAllocator.State.apply,h]
  rfl

theorem blocks_subset {memory : HeapMemory} {s t : HeapAllocator.State} {op : HeapAllocator.Op}
    (h : HeapAllocator.Step memory s op t) : s.blocks ⊆ t.blocks := by
  cases op with
  | alloc layout =>
    rw [HeapAllocator.Step,HeapAllocator.State.apply] at h
    cases hresult : HeapAllocator.alloc memory layout s.offset with
    | error e =>
      rw [hresult] at h
      cases h
    | ok result =>
      rw [hresult] at h
      obtain rfl := Except.ok.inj h
      obtain ⟨_ | address,offset⟩ := result
      · exact fun b hb => hb
      · exact fun b hb => List.mem_cons_of_mem _ hb
  | dealloc address layout =>
    cases h
    exact fun b hb => hb

theorem live_iff (l : Layout) (s : System) {id : ℕ} : s.kernel.Live id ↔ ((s.threads l).context id).isSome := by
  change _ ↔ (s.contextOf l id).isSome
  by_cases hid : id = s.kernel.running
  · rw [System.contextOf_running hid]
    exact iff_of_true (Or.inl hid) rfl
  · rw [Kernel.Live,or_iff_right hid,System.contextOf,if_neg hid,Option.isSome_map]

theorem live_of_effect {l : Layout} {s t : System} {e : Event} (heffect : Effect l s e t)
    (hother : ∀ name entryPoint stack, e ≠ .registerNamedTask name entryPoint stack)
    {id : ℕ} (hlive : t.kernel.Live id) :
    s.kernel.Live id := by
  rw [live_iff l] at hlive ⊢
  have hrunning : ((s.threads l).context (s.threads l).running).isSome := (live_iff l s).mp s.kernel.live_running
  cases e with
  | work =>
    rw [show t.threads l = _ from heffect] at hlive
    exact Threads.isSome_of_set hrunning hlive
  | timer =>
    rw [show t.threads l = _ from heffect] at hlive
    split_ifs at hlive
    · exact Threads.isSome_of_stop hlive
    · exact hlive
  | keyboard => rwa [show t.threads l = _ from heffect] at hlive
  | syscall =>
    obtain ⟨esp,hthreads,-⟩ := heffect
    rw [hthreads] at hlive
    exact Threads.isSome_of_set hrunning hlive
  | pageFault address code =>
    rw [heffect.1] at hlive
    exact Threads.isSome_of_stop hlive
  | kill pid =>
    rcases heffect with hthreads | ⟨-,hthreads⟩
    · rw [hthreads] at hlive
      exact Threads.isSome_of_set hrunning hlive
    · rw [hthreads] at hlive
      exact Threads.isSome_of_set hrunning (Threads.isSome_of_stop hlive)
  | registerNamedTask name entryPoint stack => exact absurd rfl (hother name entryPoint stack)
  | switchToUserMode =>
    rw [show t.threads l = _ from heffect] at hlive
    exact Threads.isSome_of_set hrunning hlive

theorem bases_eq {l : Layout} {s t : System} {e : Event} (hstep : Contexts.Step l s e t)
    (hother : ∀ name entryPoint stack, e ≠ .registerNamedTask name entryPoint stack) : t.bases = s.bases := by
  cases e with
  | work => exact hstep.2.1
  | timer => exact hstep.2.1
  | keyboard => exact hstep.2.1
  | syscall => exact hstep.2.1
  | pageFault address code => exact hstep.2.2.1
  | kill pid => exact hstep.2.2.1
  | registerNamedTask name entryPoint stack => exact absurd rfl (hother name entryPoint stack)
  | switchToUserMode => exact hstep.2.2.1

theorem Boot.housed {l : Layout} {memory : HeapMemory} {s : Machine} (h : Boot l memory s) : Housed memory s := by
  refine ⟨HeapAllocator.Invariant.reachable h.heap,fun id hlive => ?_⟩
  have hsched := h.system.sched
  rcases hlive with hid | hsaved
  · obtain rfl : id = 1 := by rw [hid,Kernel.running,hsched]; rfl
    exact h.stack
  · rw [Kernel.saved,hsched] at hsaved
    cases hsaved

section

variable {l : Layout} {memory : HeapMemory} (hlow : memory.base+heapSize ≤ Paging.userSpaceStart.toNat)
include hlow

theorem Housed.free {s : Machine} (h : Housed memory s) {address offset : ℕ}
    (halloc : HeapAllocator.alloc memory stackLayout s.heap.offset = .ok (some address,offset)) :
    s.system.Free (UInt32.ofNat address) ∧ (UInt32.ofNat address).toNat = address := by
  obtain ⟨habove,hfit⟩ := alloc_some h.heap.bounded halloc
  have hsize : stackLayout.size = 8192 := rfl
  have hspace : Paging.userSpaceStart.toNat < 2^32 := UInt32.toNat_lt _
  have hstack : Scheduler.stackSize.toNat = 8192 := rfl
  have haddress : (UInt32.ofNat address).toNat = address := by
    rw [UInt32.toNat_ofNat',Nat.mod_eq_of_lt (by omega)]
  refine ⟨⟨by omega,fun id hid => ?_⟩,haddress⟩
  obtain ⟨b,hb,hbase,hlength⟩ := h.boxed id hid
  have hbelow := (h.heap.below b hb).2
  rw [Set.disjoint_left]
  rintro x ⟨hge,-⟩ ⟨-,hlt⟩
  omega

theorem Housed.register {s t : Machine} (h : Housed memory s) {name : String} {entryPoint : UInt32} {address offset : ℕ}
    (halloc : HeapAllocator.alloc memory stackLayout s.heap.offset = .ok (some address,offset))
    (hheap : t.heap = s.heap.record stackLayout (some address,offset))
    (hregisters : s.system.Registers l name entryPoint (UInt32.ofNat address) t.system)
    (hthreads : t.system.threads l = ((s.system.threads l).set t.system.cpu.toContext).start
      s.system.kernel.sched.manager.nextTaskId (freshContext entryPoint (UInt32.ofNat address))) : Housed memory t := by
  have haddress := (h.free hlow halloc).2
  have hstep : HeapAllocator.Step memory s.heap (.alloc stackLayout) t.heap := by
    rw [hheap]
    exact alloc_step halloc
  refine ⟨h.heap.step hstep,fun id hlive => ?_⟩
  rw [Backed,hregisters.2.1,hheap]
  by_cases hid : id = s.system.kernel.sched.manager.nextTaskId
  · rw [hid,Function.update_self,haddress]
    exact ⟨⟨address,stackLayout⟩,List.mem_cons_self,rfl,rfl⟩
  · rw [live_iff l,hthreads,Threads.start_context_of_ne hid] at hlive
    have hrunning := (live_iff l s.system).mp s.system.kernel.live_running
    have hold := (live_iff l s.system).mpr (Threads.isSome_of_set hrunning hlive)
    obtain ⟨b,hb,hbase,hsize⟩ := h.boxed id hold
    rw [Function.update_of_ne hid]
    exact ⟨b,List.mem_cons_of_mem _ hb,hbase,hsize⟩

/-- Every act keeps the stacks in their boxes, and is one of the machine without the heap or none
at all. -/
theorem Housed.step {s t : Machine} (h : Housed memory s) (hgood : Good l s.system) {a : Act}
    (hstep : Step l memory s a t) :
    Housed memory t ∧ (t.system = s.system ∨ ∃ e, Contexts.Step l s.system e t.system) := by
  cases a with
  | run e =>
    obtain ⟨hother,hrun,hheap⟩ := hstep
    refine ⟨⟨by rw [hheap]; exact h.heap,fun id hlive => ?_⟩,Or.inr ⟨e,hrun⟩⟩
    rw [Backed,hheap,bases_eq hrun hother]
    exact h.boxed id (live_of_effect (hgood.step hrun).2 hother hlive)
  | register name entryPoint =>
    obtain ⟨address,offset,halloc,hheap,hregisters⟩ := hstep
    have hrun : Contexts.Step l s.system (.registerNamedTask name entryPoint (UInt32.ofNat address)) t.system :=
      ⟨(h.free hlow halloc).1,hregisters⟩
    exact ⟨h.register hlow halloc hheap hregisters (hgood.registerNamedTask hrun).2,Or.inr ⟨_,hrun⟩⟩
  | heap op =>
    obtain ⟨hheap,hsame⟩ := hstep
    refine ⟨⟨h.heap.step hheap,fun id hlive => ?_⟩,Or.inl hsame⟩
    rw [hsame] at hlive
    obtain ⟨b,hb,hbase,hsize⟩ := h.boxed id hlive
    exact ⟨b,blocks_subset hheap hb,by rw [hsame]; exact hbase,hsize⟩

theorem Reached.housed {t : Machine} (h : Reached l memory t) : Contexts.Reached l t.system ∧ Housed memory t := by
  obtain ⟨boot,name,entryPoint,s,hboot,⟨address,offset,halloc,hheap,hregisters⟩,hrun⟩ := h
  have hhoused := hboot.housed
  have hfirst : Contexts.Step l boot.system (.registerNamedTask name entryPoint (UInt32.ofNat address)) s.system :=
    ⟨(hhoused.free hlow halloc).1,hregisters⟩
  have hstart : Contexts.Reached l s.system := ⟨boot.system,name,entryPoint,_,s.system,hboot.system,hfirst,.refl⟩
  refine hrun.invariant (I := fun t => Contexts.Reached l t.system ∧ Housed memory t) ?_
    ⟨hstart,hhoused.register hlow halloc hheap hregisters (hboot.system.first hfirst).2⟩
  rintro s a t ⟨hs,hhoused⟩ hstep
  obtain ⟨ht,hsame | ⟨e,hrun⟩⟩ := hhoused.step hlow hs.good hstep
  · exact ⟨by rwa [hsame],ht⟩
  · exact ⟨hs.step hrun,ht⟩

/-- The heap houses all stacks: whatever else the kernel allocates in between, every reached state is
one of the machine that takes its stacks as given, every stack in use is a box of its own, apart
from every other box that the heap has ever returned, and so from the other stacks. -/
theorem heap_houses_stacks {t : Machine} (h : Reached l memory t) : Contexts.Reached l t.system ∧
    (∀ id, t.system.kernel.Live id → ∃ b ∈ t.heap.blocks, b.address = (t.system.bases id).toNat ∧ b.layout.size = 8192 ∧
      ∀ b' ∈ t.heap.blocks, b'.address ≠ b.address → Disjoint b.range b'.range) := by
  obtain ⟨hreached,hhoused⟩ := h.housed hlow
  refine ⟨hreached,fun id hlive => ?_⟩
  obtain ⟨b,hb,hbase,hsize⟩ := hhoused.boxed id hlive
  refine ⟨b,hb,hbase,hsize,fun b' hb' hne => ?_⟩
  have hsymm : Std.Symm fun b b' : Block => Disjoint b.range b'.range := ⟨fun _ _ hdisjoint => hdisjoint.symm⟩
  exact hhoused.heap.disjoint.forall hb hb' fun heq => hne (by rw [heq])

end

/-- The boxes of boot: the task state segment, the two descriptor tables and the interrupt stack. -/
def bootBoxes : List HeapAllocator.Layout :=
  [⟨104,1,⟨0,rfl⟩,by decide,by decide⟩,⟨48,1,⟨0,rfl⟩,by decide,by decide⟩,
    ⟨2048,1,⟨0,rfl⟩,by decide,by decide⟩,stackLayout]

def sampleHeap : HeapAllocator.State :=
  ⟨10392,(bootBoxes.zipWith (fun layout address => ⟨address,layout⟩) [0x200000,0x200068,0x200098,0x200898]).reverse⟩

theorem sampleHeap_reached : Runs.Reachable (HeapAllocator.Step HeapAllocator.sampleHeap) .start sampleHeap := by
  have hboot : (bootBoxes.map .alloc).foldlM (HeapAllocator.State.apply HeapAllocator.sampleHeap) .start =
      .ok sampleHeap := rfl
  obtain ⟨path,hpath,hfinal⟩ := Runs.exists_path hboot
  rw [← hfinal]
  exact Runs.Along.reachable hpath

theorem sampleHeap_next :
    HeapAllocator.alloc HeapAllocator.sampleHeap stackLayout sampleHeap.offset = .ok (some 0x202898,18584) := by
  rw [HeapAllocator.alloc_eq _ _ (by decide),if_pos (by decide)]
  decide

theorem heap_houses_stacks_start :
    ∃ t, Reached sampleLayout HeapAllocator.sampleHeap t ∧ Contexts.Reached sampleLayout t.system := by
  let boot : Machine := ⟨sampleBoot,sampleHeap⟩
  let start : Machine := ⟨sampleStart,sampleHeap.record stackLayout (some 0x202898,18584)⟩
  have hboot : Boot sampleLayout HeapAllocator.sampleHeap boot :=
    ⟨sampleBoot_boot,sampleHeap_reached,⟨0x200898,stackLayout⟩,by simp [boot,sampleHeap,bootBoxes],rfl,rfl⟩
  have hfirst : Step sampleLayout HeapAllocator.sampleHeap boot (.register "background_thread" 0x106000) start :=
    ⟨0x202898,18584,sampleHeap_next,rfl,sampleStart_step.2⟩
  have hreached : Reached sampleLayout HeapAllocator.sampleHeap start := ⟨boot,_,_,start,hboot,hfirst,.refl⟩
  exact ⟨start,hreached,(heap_houses_stacks (by decide) hreached).1⟩

end HeapStacks
end EnosKernel
