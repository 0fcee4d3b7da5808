import EnosKernel.HeapAllocator

/-! The heap over its whole life.  Nothing is ever given back, so that the kernel lives on one
megabyte of allocations in all. -/
namespace EnosKernel
namespace HeapAllocator

open MachineArith

variable {heap : HeapMemory} {s t : State}

def State.served (s : State) : ℕ := (s.blocks.map fun b => b.layout.size).sum

/-- A call takes at least what it returns from the bytes that are left, and `dealloc` gives none back. -/
theorem Invariant.consumes (h : Invariant heap s) {op : Op} (hstep : Step heap s op t) :
    s.offset ≤ t.offset ∧ t.served-s.served ≤ t.offset-s.offset ∧ s.served ≤ t.served := by
  cases op with
  | alloc layout =>
    rw [Step,State.apply,alloc_eq heap layout h.bounded] at hstep
    have hle := le_roundUp (heap.base+s.offset) layout.align_pos
    split_ifs at hstep with hfit
    · cases hstep
      simp only [State.served,State.record,List.map_cons,List.sum_cons]
      omega
    · cases hstep
      simp [State.served,State.record]
  | dealloc address layout =>
    cases hstep
    simp [State.served,dealloc]

structure Worn (heap : HeapMemory) (first t : State) : Prop where
  invariant : Invariant heap t
  behind : first.offset ≤ t.offset
  within : t.served ≤ t.offset

theorem Worn.step {first : State} (h : Worn heap first s) {op : Op} (hstep : Step heap s op t) : Worn heap first t := by
  obtain ⟨hgrows,htakes,hmore⟩ := h.invariant.consumes hstep
  have hbehind := h.behind
  have hwithin := h.within
  exact ⟨h.invariant.step hstep,by omega,by omega⟩

theorem worn_of_reachable (hs : Runs.Reachable (Step heap) .start s) : Worn heap .start s :=
  hs.invariant (I := Worn heap .start) (fun _ _ _ h hstep => h.step hstep) ⟨start_invariant heap,le_rfl,le_rfl⟩

/-- The heap only wears out.  On every run, however much is deallocated, all calls ever served have
asked for a megabyte at most; and a request that is refused once is refused for ever, as is every
larger or more strictly aligned one. -/
theorem heap_wears_out (hs : Runs.Reachable (Step heap) .start s) (hrun : Runs.Reachable (Step heap) s t) :
    t.served ≤ heapSize ∧ ∀ layout layout' : Layout, alloc heap layout s.offset = .ok (none,s.offset) →
      layout.size ≤ layout'.size → layout.align ∣ layout'.align →
      alloc heap layout' t.offset = .ok (none,t.offset) := by
  have hworn := worn_of_reachable hs
  have hlater : Worn heap s t := hrun.invariant (I := Worn heap s) (fun _ _ _ h hstep => h.step hstep)
    ⟨hworn.invariant,le_rfl,hworn.within⟩
  refine ⟨hlater.within.trans hlater.invariant.bounded,fun layout layout' hrefused hsize halign => ?_⟩
  rw [alloc_eq heap layout hworn.invariant.bounded] at hrefused
  split_ifs at hrefused with hfit
  · simp at hrefused
  · have hstart := roundUp_mono (Nat.add_le_add_left hlater.behind heap.base) halign layout'.align_pos
    rw [alloc_eq heap layout' hlater.invariant.bounded,if_neg (by omega)]

theorem heap_wears_out_half : ∃ (layout : Layout) (s t : State), layout.size = 524289 ∧ layout.align = 1 ∧
    Runs.Reachable (Step sampleHeap) .start s ∧ Runs.Reachable (Step sampleHeap) s t ∧
    alloc sampleHeap layout t.offset = .ok (none,t.offset) := by
  obtain ⟨half,hsize,halign⟩ : ∃ layout : Layout, layout.size = 524289 ∧ layout.align = 1 :=
    ⟨⟨524289,1,⟨0,rfl⟩,by decide,by decide⟩,rfl,rfl⟩
  have hround : ∀ address, roundUp address half.align = address := by simp [halign,roundUp,Nat.mod_one]
  have hfirst : Step sampleHeap .start (.alloc half) ⟨524289,[⟨0x200000,half⟩]⟩ := by
    rw [Step,State.apply,alloc_eq sampleHeap half (by decide),hround,hsize,if_pos (by decide)]
    rfl
  have hfree : Step sampleHeap ⟨524289,[⟨0x200000,half⟩]⟩ (.dealloc 0x200000 half) ⟨524289,[⟨0x200000,half⟩]⟩ := rfl
  have hrefused : alloc sampleHeap half 524289 = .ok (none,524289) := by
    rw [alloc_eq sampleHeap half (by decide),hround,hsize,if_neg (by decide)]
  have hs : Runs.Reachable (Step sampleHeap) .start ⟨524289,[⟨0x200000,half⟩]⟩ := .single ⟨_,hfirst⟩
  have hrun : Runs.Reachable (Step sampleHeap) ⟨524289,[⟨0x200000,half⟩]⟩ ⟨524289,[⟨0x200000,half⟩]⟩ :=
    .single ⟨_,hfree⟩
  exact ⟨half,_,_,hsize,halign,hs,hrun,(heap_wears_out hs hrun).2 half half hrefused le_rfl (dvd_refl _)⟩

end HeapAllocator
end EnosKernel
