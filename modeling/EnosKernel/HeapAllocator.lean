import EnosKernel.MachineArith
import EnosKernel.Runs
import Mathlib.Order.CompletePartialOrder

/-! The kernel heap of `allocator.rs`: a bump allocator over a static array, and what holds
of the blocks it has returned after any sequence of calls. -/
namespace EnosKernel
namespace HeapAllocator

open MachineArith

def heapSize : ℕ := 1024*1024

/-- The static array behind the heap. -/
structure HeapMemory where
  base : ℕ
  aligned : 4096 ∣ base
  fits : base+heapSize ≤ 2^31

/-- What `core::alloc::Layout` guarantees, for a request of at least one byte. -/
structure Layout where
  size : ℕ
  align : ℕ
  align_pow : ∃ k, align = 2^k
  size_pos : 1 ≤ size
  rounded : roundUp size align ≤ 2^31-1

/-- The start of the block, moved up to the alignment of the layout. -/
def alignStart (allocStart align : ℕ) : Except Panic ℕ :=
  let remainder := allocStart % align
  if remainder = 0 then .ok allocStart
  else do
    let sum ← add 32 allocStart align
    .ok (sum-remainder)

/-- The new offset and the block, if it ends inside the heap; `none` is the null pointer. -/
def commit (heap : HeapMemory) (layout : Layout) (offset startAddr : ℕ) : Except Panic (Option ℕ × ℕ) :=
  match checkedAdd 32 startAddr layout.size with
  | some last => do
    let heapEnd ← add 32 heap.base heapSize
    if heapEnd < last then .ok (none,offset)
    else .ok (some startAddr,last-heap.base)
  | none => .ok (none,offset)

/-- One call: the pointer returned and the offset left behind. -/
def alloc (heap : HeapMemory) (layout : Layout) (offset : ℕ) : Except Panic (Option ℕ × ℕ) := do
  let allocStart ← add 32 heap.base offset
  let startAddr ← alignStart allocStart layout.align
  commit heap layout offset startAddr

/-- A bump allocator does not reuse memory. -/
def dealloc (_address : ℕ) (_layout : Layout) (offset : ℕ) : ℕ := offset

structure HeapStats where
  usedBytes : ℕ
  freeBytes : ℕ
  totalBytes : ℕ
  usedPercent : ℕ
  deriving DecidableEq, Repr

def heapStats (offset : ℕ) : HeapStats where
  usedBytes := min offset heapSize
  freeBytes := heapSize-min offset heapSize
  totalBytes := heapSize
  usedPercent := if heapSize = 0 then 0 else saturatingMul 32 (min offset heapSize) 100/heapSize

structure Block where
  address : ℕ
  layout : Layout

def Block.range (b : Block) : Set ℕ := Set.Ico b.address (b.address+b.layout.size)

/-- The offset together with every block returned so far, the latest first. -/
structure State where
  offset : ℕ
  blocks : List Block

def State.start : State := ⟨0,[]⟩

inductive Op
  | alloc (layout : Layout)
  | dealloc (address : ℕ) (layout : Layout)

def State.record (s : State) (layout : Layout) : Option ℕ × ℕ → State
  | (none,offset) => ⟨offset,s.blocks⟩
  | (some address,offset) => ⟨offset,⟨address,layout⟩::s.blocks⟩

def State.apply (heap : HeapMemory) (s : State) : Op → Except Panic State
  | .alloc layout => do
    let result ← HeapAllocator.alloc heap layout s.offset
    .ok (s.record layout result)
  | .dealloc address layout => .ok { s with offset := HeapAllocator.dealloc address layout s.offset }

def Step (heap : HeapMemory) (s : State) (op : Op) (s' : State) : Prop := s.apply heap op = .ok s'

theorem Layout.align_pos (layout : Layout) : 0 < layout.align := by
  obtain ⟨k,hk⟩ := layout.align_pow
  rw [hk]
  positivity

theorem Layout.align_le (layout : Layout) : layout.align ≤ 2^31-1 := by
  have hle := le_roundUp layout.size layout.align_pos
  have hdvd := dvd_roundUp layout.size layout.align
  have hpos := layout.size_pos
  exact (Nat.le_of_dvd (by omega) hdvd).trans layout.rounded

theorem Layout.size_le (layout : Layout) : layout.size ≤ 2^31-1 :=
  (le_roundUp layout.size layout.align_pos).trans layout.rounded

theorem Layout.align_dvd (layout : Layout) : layout.align ∣ 2^31 := by
  have hle := layout.align_le
  obtain ⟨k,hk⟩ := layout.align_pow
  rw [hk] at hle ⊢
  have hlt : 2^k < 2^31 := by omega
  exact pow_dvd_pow 2 ((Nat.pow_lt_pow_iff_right (by norm_num)).mp hlt).le

/-- The aligned start is at most 2 GiB, so the end of the block is a 32-bit word. -/
theorem end_lt (heap : HeapMemory) (layout : Layout) {offset : ℕ} (hoffset : offset ≤ heapSize) :
    roundUp (heap.base+offset) layout.align+layout.size < 2^32 := by
  have hfits := heap.fits
  have hstart := roundUp_le layout.align_dvd (show heap.base+offset ≤ 2^31 by omega)
  have hsize := layout.size_le
  omega

theorem alignStart_ok {start align : ℕ} (h : start+align < 2^32) :
    alignStart start align = .ok (roundUp start align) := by
  unfold alignStart roundUp
  dsimp only
  split_ifs
  · rfl
  · rw [add_ok h]
    rfl

theorem commit_eq (heap : HeapMemory) (layout : Layout) (offset start : ℕ) :
    commit heap layout offset start =
      if start+layout.size ≤ heap.base+heapSize then .ok (some start,start+layout.size-heap.base)
      else .ok (none,offset) := by
  have hfits := heap.fits
  have hend : add 32 heap.base heapSize = .ok (heap.base+heapSize) := add_ok (by omega)
  by_cases hlast : start+layout.size < 2^32
  · have hsum : checkedAdd 32 start layout.size = some (start+layout.size) := if_pos hlast
    rw [commit,hsum,hend]
    dsimp only
    rw [ok_bind]
    by_cases hfit : start+layout.size ≤ heap.base+heapSize
    · rw [if_pos hfit,if_neg (not_lt.mpr hfit)]
    · rw [if_neg hfit,if_pos (not_le.mp hfit)]
  · have hsum : checkedAdd 32 start layout.size = none := if_neg hlast
    rw [commit,hsum,if_neg (by omega)]

/-- A call takes the aligned start if the request fits, and otherwise changes nothing. -/
theorem alloc_eq (heap : HeapMemory) (layout : Layout) {offset : ℕ} (hoffset : offset ≤ heapSize) :
    alloc heap layout offset =
      if roundUp (heap.base+offset) layout.align+layout.size ≤ heap.base+heapSize then
        .ok (some (roundUp (heap.base+offset) layout.align),
          roundUp (heap.base+offset) layout.align+layout.size-heap.base)
      else .ok (none,offset) := by
  have hfits := heap.fits
  have halign := layout.align_le
  have hfirst : add 32 heap.base offset = .ok (heap.base+offset) := add_ok (by omega)
  rw [alloc,hfirst,ok_bind,alignStart_ok (by omega),ok_bind,commit_eq]

/-- The blocks lie below the offset, aligned and apart from each other. -/
structure Invariant (heap : HeapMemory) (s : State) : Prop where
  bounded : s.offset ≤ heapSize
  aligned : ∀ b ∈ s.blocks, b.layout.align ∣ b.address
  below : ∀ b ∈ s.blocks, heap.base ≤ b.address ∧ b.address+b.layout.size ≤ heap.base+s.offset
  disjoint : s.blocks.Pairwise fun b b' => Disjoint b.range b'.range

theorem start_invariant (heap : HeapMemory) : Invariant heap State.start :=
  ⟨Nat.zero_le _,by simp [State.start],by simp [State.start],List.Pairwise.nil⟩

theorem Invariant.push {heap : HeapMemory} {s : State} (h : Invariant heap s) {b : Block}
    (halign : b.layout.align ∣ b.address) (habove : heap.base+s.offset ≤ b.address)
    (hfit : b.address+b.layout.size ≤ heap.base+heapSize) :
    Invariant heap ⟨b.address+b.layout.size-heap.base,b::s.blocks⟩ where
  bounded := by simp only; omega
  aligned := by
    intro b' hb'
    rcases List.mem_cons.mp hb' with rfl | hb'
    · exact halign
    · exact h.aligned b' hb'
  below := by
    intro b' hb'
    simp only
    rcases List.mem_cons.mp hb' with rfl | hb'
    · omega
    · have := h.below b' hb'
      omega
  disjoint := by
    refine List.pairwise_cons.mpr ⟨?_,h.disjoint⟩
    intro b' hb'
    have := h.below b' hb'
    exact Set.Ico_disjoint_Ico.mpr (by omega)

theorem Invariant.step {heap : HeapMemory} {s s' : State} (h : Invariant heap s) {op : Op}
    (hstep : Step heap s op s') : Invariant heap s' := by
  cases op with
  | alloc layout =>
    rw [Step,State.apply,alloc_eq heap layout h.bounded] at hstep
    split_ifs at hstep with hfit
    · cases hstep
      have hle := le_roundUp (heap.base+s.offset) layout.align_pos
      exact h.push (b := ⟨_,layout⟩) (dvd_roundUp _ _) hle hfit
    · cases hstep
      exact h
  | dealloc address layout =>
    cases hstep
    exact h

theorem Invariant.reachable {heap : HeapMemory} {s : State}
    (h : Runs.Reachable (Step heap) State.start s) : Invariant heap s :=
  h.invariant (fun _ _ _ hs hstep => hs.step hstep) (start_invariant heap)

/-- In every state a run reaches, the blocks returned so far are aligned, inside the heap and
pairwise disjoint; the next call does not panic and does not lower the offset, and it
returns null, leaving the offset, only if the aligned request does not fit.  No addition
leaves the 32-bit range. -/
theorem heap_safety (heap : HeapMemory) {s : State}
    (h : Runs.Reachable (Step heap) State.start s) :
    s.offset ≤ heapSize ∧
    (∀ b ∈ s.blocks, b.layout.align ∣ b.address ∧
      b.range ⊆ Set.Ico heap.base (heap.base+heapSize)) ∧
    (s.blocks.Pairwise fun b b' => Disjoint b.range b'.range) ∧
    (∀ layout, roundUp (heap.base+s.offset) layout.align+layout.size < 2^32 ∧
      ∃ result offset, alloc heap layout s.offset = .ok (result,offset) ∧
      s.offset ≤ offset ∧ offset ≤ heapSize ∧
      (result = none → offset = s.offset ∧
        heap.base+heapSize < roundUp (heap.base+s.offset) layout.align+layout.size)) ∧
    ∀ address layout, dealloc address layout s.offset = s.offset := by
  have hs := Invariant.reachable h
  refine ⟨hs.bounded,?_,hs.disjoint,?_,fun _ _ => rfl⟩
  · intro b hb
    have hbounds := hs.below b hb
    have hoffset := hs.bounded
    exact ⟨hs.aligned b hb,Set.Ico_subset_Ico hbounds.1 (by omega)⟩
  · intro layout
    refine ⟨end_lt heap layout hs.bounded,?_⟩
    have hle := le_roundUp (heap.base+s.offset) layout.align_pos
    rw [alloc_eq heap layout hs.bounded]
    split_ifs with hfit
    · exact ⟨_,_,rfl,by omega,by omega,by simp⟩
    · exact ⟨none,s.offset,rfl,le_rfl,hs.bounded,fun _ => ⟨rfl,not_le.mp hfit⟩⟩

def sampleHeap : HeapMemory := ⟨0x200000,by decide,by decide⟩

def sampleLayout : Layout := ⟨10,8,⟨3,rfl⟩,by decide,by decide⟩

def sampleState : State := ⟨26,[⟨0x200010,sampleLayout⟩,⟨0x200000,sampleLayout⟩]⟩

theorem heap_safety_sample : Runs.Reachable (Step sampleHeap) State.start sampleState ∧
    sampleState.offset ≤ heapSize ∧
    sampleState.blocks.Pairwise fun b b' => Disjoint b.range b'.range := by
  have hreach : Runs.Reachable (Step sampleHeap) State.start sampleState :=
    .tail (.single ⟨.alloc sampleLayout,rfl⟩) ⟨.alloc sampleLayout,rfl⟩
  have hsafe := heap_safety sampleHeap hreach
  exact ⟨hreach,hsafe.1,hsafe.2.2.1⟩

end HeapAllocator
end EnosKernel
