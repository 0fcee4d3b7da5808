import EnosKernel.FrameRuns
import EnosKernel.Runs

/-! The walk over a memory map of any content.  A turn of the loop hands out a frame or
leaves an entry behind, in whatever call it falls; which entries are met is read off the
map alone, and the calls all return exactly when every entry met can be passed. -/
namespace EnosKernel
namespace FrameAllocator

open MachineArith BumpAllocator

variable {mem : Memory} {image : KernelImage} {a a' : BumpAllocator} {e : MemoryMapEntry}

def BumpAllocator.Visit.state : Visit → BumpAllocator
  | .frame _ a => a
  | .next a => a

def LoopStep (mem : Memory) (image : KernelImage) (a : BumpAllocator) (v : Visit) (a' : BumpAllocator) :
    Prop := a.currentMmapOffset < a.memoryMapLength ∧ visit mem image a = .ok v ∧ v.state = a'

def Returns (mem : Memory) (image : KernelImage) (a : BumpAllocator) : Prop :=
  ∀ n, ∃ frames a', allocateFrames mem image n a = .ok (frames,a')

theorem allocateFrame_of_lt (h : a.currentMmapOffset < a.memoryMapLength) :
    allocateFrame mem image a = match visit mem image a with
      | .error p => .error p
      | .ok (.frame f a') => .ok (some f,a')
      | .ok (.next a') => allocateFrame mem image a' := by
  rw [allocateFrame,if_pos h]
  split <;> simp_all

theorem Returns.visit_ok (h : Returns mem image a) (ho : a.currentMmapOffset < a.memoryMapLength) :
    ∃ v, visit mem image a = .ok v := by
  obtain ⟨frames,a',hrun⟩ := h 1
  obtain ⟨r,hcall,-⟩ := bind_eq_ok.mp hrun
  rw [allocateFrame_of_lt ho] at hcall
  cases hv : visit mem image a with
  | error p => simp [hv] at hcall
  | ok v => exact ⟨v,rfl⟩

theorem Returns.step (h : Returns mem image a) {v : Visit} (hstep : LoopStep mem image a v a') :
    Returns mem image a' := by
  obtain ⟨ho,hv,rfl⟩ := hstep
  intro n
  cases v with
  | frame f b =>
    obtain ⟨frames,last,hrun⟩ := h (n+1)
    obtain ⟨r,hcall,hrest⟩ := bind_eq_ok.mp hrun
    rw [allocateFrame_of_lt ho,hv] at hcall
    cases hcall
    obtain ⟨r',hrest,-⟩ := bind_eq_ok.mp hrest
    exact ⟨r'.1,r'.2,hrest⟩
  | next b =>
    cases n with
    | zero => exact ⟨[],b,rfl⟩
    | succ n =>
      obtain ⟨frames,last,hrun⟩ := h (n+1)
      rw [allocateFrames,allocateFrame_of_lt ho,hv] at hrun
      exact ⟨frames,last,hrun⟩

theorem allocateFrame_turns {a : BumpAllocator} (hok : ∀ b, Runs.Reachable (LoopStep mem image) a b →
      b.currentMmapOffset < b.memoryMapLength → ∃ v, visit mem image b = .ok v) :
    ∃ result b, allocateFrame mem image a = .ok (result,b) ∧ Runs.Reachable (LoopStep mem image) a b := by
  by_cases ho : a.currentMmapOffset < a.memoryMapLength
  · obtain ⟨v,hv⟩ := hok a .refl ho
    have hstep : Runs.Reachable (LoopStep mem image) a v.state := .single ⟨v,ho,hv,rfl⟩
    rw [allocateFrame_of_lt ho,hv]
    cases v with
    | frame f b => exact ⟨some f,b,rfl,hstep⟩
    | next b =>
      obtain ⟨result,c,hcall,hturns⟩ := allocateFrame_turns (a := b)
        fun c hc => hok c (hstep.trans hc)
      exact ⟨result,c,hcall,hstep.trans hturns⟩
  · exact ⟨none,a,by rw [allocateFrame,if_neg ho],.refl⟩
termination_by a.memoryMapLength-a.currentMmapOffset
decreasing_by
  have := visit_next hv
  omega

theorem returns_iff {a : BumpAllocator} : Returns mem image a ↔ ∀ b, Runs.Reachable (LoopStep mem image) a b →
    b.currentMmapOffset < b.memoryMapLength → ∃ v, visit mem image b = .ok v := by
  constructor
  · intro h b hb
    exact (hb.invariant (I := Returns mem image) (fun _ _ _ hr hstep => hr.step hstep) h).visit_ok
  · intro hok n
    induction n generalizing a with
    | zero => exact ⟨[],a,rfl⟩
    | succ n ih =>
      obtain ⟨result,b,hcall,hturns⟩ := allocateFrame_turns hok
      obtain ⟨frames,c,hrest⟩ := ih fun c hc => hok c (hturns.trans hc)
      exact ⟨result::frames,c,by simp [allocateFrames,hcall,hrest,bind,Except.bind]⟩

/-- The cursor, once placed, stands at a page of the 32-bit space. -/
def BumpAllocator.Aligned (a : BumpAllocator) : Prop :=
  ∀ c, a.nextFreeFrame = some c → pageSize ∣ c ∧ c < 2^32

theorem cursor_aligned (ha : a.Aligned) (hroomy : Roomy e) :
    ∃ c, a.cursor e = .ok c ∧ (pageSize ∣ c ∧ c < 2^32) ∧ ∀ c', a.nextFreeFrame = some c' → c' = c := by
  cases hcur : a.nextFreeFrame with
  | some c => exact ⟨c,by simp only [BumpAllocator.cursor,hcur],ha c hcur,by simp⟩
  | none =>
    refine ⟨_,cursor_first hcur hroomy,⟨?_,Nat.mod_lt _ (by decide)⟩,by simp⟩
    have hdvd := dvd_roundUp e.allocationFloor pageSize
    simp only [truncate,pageSize] at *
    omega

/-- The end of the image can be rounded up. -/
def KernelImage.Roundable (image : KernelImage) : Prop := image.kernelEnd ≤ 2^32-pageSize

theorem kernelEndAligned_overflow (hword : image.kernelEnd < 2^32) (h : ¬ image.Roundable) :
    kernelEndAligned image = .error .overflow := by
  simp only [KernelImage.Roundable,pageSize] at h
  unfold kernelEndAligned
  rw [if_neg (by simp only [pageSize]; omega),add_overflow (by simp only [pageSize]; omega)]

theorem skipKernel_aligned (h : image.Roundable) {c : ℕ} (hc : pageSize ∣ c ∧ c < 2^32) :
    (pageSize ∣ skipKernel image (roundedEnd image) c ∧ skipKernel image (roundedEnd image) c < 2^32) ∧
    c ≤ skipKernel image (roundedEnd image) c := by
  obtain ⟨hdvd,hle,hend⟩ := roundedEnd_spec image
  unfold skipKernel
  split_ifs with hin
  · simp only [KernelImage.Roundable,pageSize] at *
    omega
  · exact ⟨hc,le_rfl⟩

/-- What a turn does to an entry of any content: it hands out a page behind the cursor, leaves
the entry behind, or overflows. -/
inductive Outcome (image : KernelImage) (a : BumpAllocator) (e : MemoryMapEntry) :
    Except Panic Visit → Prop
  | frame {s : ℕ} (hafter : ∀ c, a.nextFreeFrame = some c → c ≤ s) (hpage : pageSize ∣ s)
      (hword : s+pageSize < 2^32) :
      Outcome image a e (.ok (.frame ⟨s⟩ { a with nextFreeFrame := some (s+pageSize) }))
  | skip (hpass : Roomy e → image.Roundable ∧ e.regionEnd < 2^32-1) : Outcome image a e (a.skipEntry e)
  | overflow (hroomy : Roomy e) (hfull : ¬ (image.Roundable ∧ e.regionEnd < 2^32-1)) :
      Outcome image a e (.error .overflow)

theorem visitEntry_outcome (hword : image.kernelEnd < 2^32) (ha : a.Aligned) (e : MemoryMapEntry) :
    Outcome image a e (visitEntry image a e) := by
  by_cases hroomy : Roomy e
  · obtain ⟨c,hcur,hc,hplaced⟩ := cursor_aligned ha hroomy
    rw [visitEntry_of_roomy hroomy]
    by_cases hround : image.Roundable
    · obtain ⟨⟨hdvd,hlt⟩,hle⟩ := skipKernel_aligned hround hc
      simp only [takeFrame,hcur,kernelEndAligned_ok hround,ok_bind]
      generalize skipKernel image (roundedEnd image) c = s at *
      have hlast : s+pageSize < 2^32 ∨ s+pageSize = 2^32 := by simp only [pageSize] at *; omega
      rcases hlast with hlow | hlast
      · rw [saturatingAdd_of_lt hlow,add_ok hlow]
        split_ifs with hfit
        · exact .frame (fun c' hc' => hplaced c' hc' ▸ hle) hdvd hlow
        · refine .skip fun _ => ⟨hround,?_⟩
          simp only [pageSize] at *
          omega
      · rw [saturatingAdd_of_le hlast.ge,add_overflow hlast.ge]
        split_ifs with hfit
        · exact .overflow hroomy fun hfree => absurd hfit.1 (by omega)
        · refine .skip fun _ => ⟨hround,?_⟩
          simp only [pageSize] at *
          omega
    · simp only [takeFrame,hcur,kernelEndAligned_overflow hword hround,ok_bind]
      exact .overflow hroomy fun hfree => hround hfree.1
  · rw [visitEntry_of_not_roomy hroomy]
    exact .skip fun h => absurd h hroomy

theorem skipEntry_ok (h : a.currentMmapOffset+e.size.toNat+4 < 2^32) :
    a.skipEntry e = .ok (.next { a with
      currentMmapOffset := a.currentMmapOffset+e.size.toNat+4
      nextFreeFrame := none }) := by
  rw [skipEntry,add_ok (by omega),ok_bind,add_ok (by omega),ok_bind,Nat.add_assoc]

theorem skipEntry_overflow (h : 2^32 ≤ a.currentMmapOffset+e.size.toNat+4) :
    a.skipEntry e = .error .overflow := by
  unfold skipEntry
  by_cases hstride : e.size.toNat+4 < 2^32
  · rw [add_ok hstride,ok_bind,add_overflow (by omega)]
    rfl
  · rw [add_overflow (not_lt.mp hstride)]
    rfl

/-- The offsets at which a map has its entries, each `size + 4` bytes after the one before. -/
inductive EntryOffset (mem : Memory) (addr length : ℕ) : ℕ → Prop
  | first (h : 0 < length) : EntryOffset mem addr length 0
  | next {o : ℕ} (ho : EntryOffset mem addr length o)
      (h : o+(entryAt mem (addr+o)).size.toNat+4 < length) :
      EntryOffset mem addr length (o+(entryAt mem (addr+o)).size.toNat+4)

theorem EntryOffset.lt {addr length o : ℕ} (h : EntryOffset mem addr length o) : o < length := by
  cases h <;> assumption

theorem new_offset (info : MultibootInfo) : (BumpAllocator.new info).currentMmapOffset = 0 := by
  unfold BumpAllocator.new
  split_ifs <;> rfl

theorem new_nextFreeFrame (info : MultibootInfo) : (BumpAllocator.new info).nextFreeFrame = none := by
  unfold BumpAllocator.new
  split_ifs <;> rfl

/-- Every addition that the entry at offset `o` calls for stays in range. -/
structure Passable (mem : Memory) (image : KernelImage) (addr o : ℕ) : Prop where
  address : addr+o < 2^32
  stride : o+(entryAt mem (addr+o)).size.toNat+4 < 2^32
  region : Roomy (entryAt mem (addr+o)) →
    image.Roundable ∧ (entryAt mem (addr+o)).regionEnd < 2^32-1

/-- What holds between two turns. -/
structure Walking (mem : Memory) (addr length : ℕ) (a : BumpAllocator) : Prop where
  addr_eq : a.memoryMapAddr = addr
  length_eq : a.memoryMapLength = length
  offset : a.currentMmapOffset < length → EntryOffset mem addr length a.currentMmapOffset
  aligned : a.Aligned

namespace Walking

variable {addr length : ℕ}

theorem new (mem : Memory) (info : MultibootInfo) : Walking mem (BumpAllocator.new info).memoryMapAddr
    (BumpAllocator.new info).memoryMapLength (BumpAllocator.new info) := by
  refine ⟨rfl,rfl,fun h => ?_,by simp [BumpAllocator.Aligned,new_nextFreeFrame]⟩
  rw [new_offset] at h ⊢
  exact .first h

theorem visit_eq (h : Walking mem addr length a) (haddr : addr+a.currentMmapOffset < 2^32) :
    visit mem image a = visitEntry image a (entryAt mem (addr+a.currentMmapOffset)) := by
  rw [visit,h.addr_eq,add_ok haddr,ok_bind]

theorem address_of_ok (h : Walking mem addr length a) {v : Visit} (hv : visit mem image a = .ok v) :
    addr+a.currentMmapOffset < 2^32 := by
  obtain ⟨mmap,hadd,-⟩ := bind_eq_ok.mp hv
  rw [h.addr_eq] at hadd
  exact (add_eq_ok.mp hadd).2

/-- A turn that returns has handed out a page behind the cursor or has passed the entry. -/
theorem turn (h : Walking mem addr length a) (hword : image.kernelEnd < 2^32) {v : Visit}
    (hv : visit mem image a = .ok v) :
    (∃ s, v = .frame ⟨s⟩ { a with nextFreeFrame := some (s+pageSize) } ∧
      (∀ c, a.nextFreeFrame = some c → c ≤ s) ∧ pageSize ∣ s ∧ s+pageSize < 2^32) ∨
    (Passable mem image addr a.currentMmapOffset ∧ v = .next { a with
      currentMmapOffset := a.currentMmapOffset+
        (entryAt mem (addr+a.currentMmapOffset)).size.toNat+4
      nextFreeFrame := none }) := by
  have haddr := h.address_of_ok hv
  have hout := visitEntry_outcome hword h.aligned (entryAt mem (addr+a.currentMmapOffset))
  rw [← h.visit_eq haddr,hv] at hout
  generalize hres : Except.ok v = result at hout
  cases hout with
  | frame hafter hpage hlow =>
    cases hres
    exact Or.inl ⟨_,rfl,hafter,hpage,hlow⟩
  | skip hpass =>
    by_cases hstride : a.currentMmapOffset+(entryAt mem (addr+a.currentMmapOffset)).size.toNat+4 < 2^32
    · rw [skipEntry_ok hstride] at hres
      exact Or.inr ⟨⟨haddr,hstride,hpass⟩,Except.ok.inj hres⟩
    · rw [skipEntry_overflow (not_lt.mp hstride)] at hres
      cases hres
  | overflow hroomy hfull => cases hres

theorem step (h : Walking mem addr length a) (hword : image.kernelEnd < 2^32) {v : Visit}
    (hstep : LoopStep mem image a v a') : Walking mem addr length a' := by
  obtain ⟨ho,hv,rfl⟩ := hstep
  rw [h.length_eq] at ho
  rcases h.turn hword hv with ⟨s,rfl,-,hpage,hlow⟩ | ⟨hpass,rfl⟩
  · refine ⟨h.addr_eq,h.length_eq,h.offset,?_⟩
    rintro c ⟨⟩
    simp only [pageSize] at *
    omega
  · refine ⟨h.addr_eq,h.length_eq,fun hlt => .next (h.offset ho) hlt,?_⟩
    rintro c ⟨⟩

/-- If no turn panics from here on, the entry is passed in the end. -/
theorem passes (h : Walking mem addr length a) (hword : image.kernelEnd < 2^32)
    (hok : ∀ b, Runs.Reachable (LoopStep mem image) a b →
      b.currentMmapOffset < b.memoryMapLength → ∃ v, visit mem image b = .ok v)
    (ho : a.currentMmapOffset < length) : Passable mem image addr a.currentMmapOffset ∧
      ∃ b, Runs.Reachable (LoopStep mem image) a b ∧ b.currentMmapOffset =
        a.currentMmapOffset+(entryAt mem (addr+a.currentMmapOffset)).size.toNat+4 := by
  -- the cursor moves up with every frame handed out, and stays below 4 GiB
  induction hm : 2^32-a.nextFreeFrame.getD 0 using Nat.strong_induction_on generalizing a with
  | _ m ih =>
    have ho' : a.currentMmapOffset < a.memoryMapLength := h.length_eq.symm ▸ ho
    obtain ⟨v,hv⟩ := hok a .refl ho'
    have hstep : LoopStep mem image a v v.state := ⟨ho',hv,rfl⟩
    have hreach : Runs.Reachable (LoopStep mem image) a v.state := .single ⟨v,hstep⟩
    rcases h.turn hword hv with ⟨s,rfl,hafter,hpage,hlow⟩ | ⟨hpass,rfl⟩
    · have hbehind : a.nextFreeFrame.getD 0 ≤ s := by
        cases hcur : a.nextFreeFrame with
        | none => exact Nat.zero_le s
        | some c => exact hafter c hcur
      have hless : 2^32-(some (s+pageSize)).getD 0 < m := by
        rw [← hm,Option.getD_some]
        simp only [pageSize] at *
        omega
      obtain ⟨hpass,b,hb,hoffset⟩ := ih _ hless (h.step hword hstep) (fun b hb => hok b (hreach.trans hb))
        ho rfl
      exact ⟨hpass,b,hreach.trans hb,hoffset⟩
    · exact ⟨hpass,_,hreach,rfl⟩

end Walking

section AnyMap

variable {info : MultibootInfo} (hword : image.kernelEnd < 2^32)
include hword

theorem walking_of_reachable (h : Runs.Reachable (LoopStep mem image) (BumpAllocator.new info) a) :
    Walking mem (BumpAllocator.new info).memoryMapAddr (BumpAllocator.new info).memoryMapLength a :=
  h.invariant (I := Walking mem _ _) (fun _ _ _ hw hstep => hw.step hword hstep) (.new mem info)

theorem met_of_returns (h : Returns mem image (BumpAllocator.new info)) {o : ℕ}
    (ho : EntryOffset mem (BumpAllocator.new info).memoryMapAddr
      (BumpAllocator.new info).memoryMapLength o) :
    Passable mem image (BumpAllocator.new info).memoryMapAddr o ∧
    ∃ a, Runs.Reachable (LoopStep mem image) (BumpAllocator.new info) a ∧ a.currentMmapOffset = o := by
  have hpasses {a : BumpAllocator}
      (ha : Runs.Reachable (LoopStep mem image) (BumpAllocator.new info) a)
      (hlt : a.currentMmapOffset < (BumpAllocator.new info).memoryMapLength) :=
    (walking_of_reachable hword ha).passes hword (fun b hb => returns_iff.mp h b (ha.trans hb)) hlt
  have hmet : ∃ a, Runs.Reachable (LoopStep mem image) (BumpAllocator.new info) a ∧
      a.currentMmapOffset = o := by
    induction ho with
    | first _ => exact ⟨_,.refl,new_offset info⟩
    | next ho hlt ih =>
      obtain ⟨a,ha,rfl⟩ := ih
      obtain ⟨-,b,hb,hoffset⟩ := hpasses ha ho.lt
      exact ⟨b,ha.trans hb,hoffset⟩
  obtain ⟨a,ha,rfl⟩ := hmet
  exact ⟨(hpasses ha ho.lt).1,a,ha,rfl⟩

theorem returns_iff_passable : Returns mem image (BumpAllocator.new info) ↔
    ∀ o, EntryOffset mem (BumpAllocator.new info).memoryMapAddr
      (BumpAllocator.new info).memoryMapLength o →
      Passable mem image (BumpAllocator.new info).memoryMapAddr o := by
  constructor
  · exact fun h o ho => (met_of_returns hword h ho).1
  · intro hall
    rw [returns_iff]
    intro b hb ho
    have hw := walking_of_reachable hword hb
    rw [hw.length_eq] at ho
    obtain ⟨haddr,hstride,hregion⟩ := hall _ (hw.offset ho)
    have hout := visitEntry_outcome hword hw.aligned
      (entryAt mem ((BumpAllocator.new info).memoryMapAddr+b.currentMmapOffset))
    rw [hw.visit_eq haddr]
    generalize visitEntry image b _ = result at hout ⊢
    cases hout with
    | frame => exact ⟨_,rfl⟩
    | skip => exact ⟨_,skipEntry_ok hstride⟩
    | overflow hroomy hfull => exact absurd (hregion hroomy) hfull

/-- The walk survives a map of any content exactly when each of its entries lies inside it and
can be passed. -/
theorem walk_survives_iff : (Returns mem image (BumpAllocator.new info) ∧
      ∀ a, Runs.Reachable (LoopStep mem image) (BumpAllocator.new info) a →
        a.currentMmapOffset < a.memoryMapLength →
        a.memoryMapAddr+a.currentMmapOffset+24 ≤ a.memoryMapAddr+a.memoryMapLength ∧
        ∀ b, visit mem image a = .ok (.next b) → a.currentMmapOffset < b.currentMmapOffset) ↔
    ∀ o, EntryOffset mem (BumpAllocator.new info).memoryMapAddr
      (BumpAllocator.new info).memoryMapLength o →
      Passable mem image (BumpAllocator.new info).memoryMapAddr o ∧
        o+24 ≤ (BumpAllocator.new info).memoryMapLength := by
  constructor
  · rintro ⟨hreturns,hinside⟩ o ho
    obtain ⟨hpass,a,ha,rfl⟩ := met_of_returns hword hreturns ho
    have hlength := (walking_of_reachable hword ha).length_eq
    have := (hinside a ha (hlength.symm ▸ ho.lt)).1
    exact ⟨hpass,by omega⟩
  · intro hall
    refine ⟨(returns_iff_passable hword).mpr fun o ho => (hall o ho).1,fun a ha hlt => ⟨?_,?_⟩⟩
    · have hw := walking_of_reachable hword ha
      have := (hall _ (hw.offset (hw.length_eq ▸ hlt))).2
      rw [hw.length_eq]
      omega
    · exact fun b hb => (visit_next hb).2

end AnyMap

theorem entryOffset_iff {info : MultibootInfo} {es : List MemoryMapEntry} (h : WellFormedMap mem info es)
    {o : ℕ} : EntryOffset mem info.mmapAddr.toNat (24*es.length) o ↔ ∃ i < es.length, o = 24*i := by
  have hnext {i : ℕ} (hi : i < es.length) :
      24*i+(entryAt mem (info.mmapAddr.toNat+24*i)).size.toNat+4 = 24*(i+1) := by
    rw [h.entry i hi,h.size _ (List.getElem_mem hi)]
    rfl
  constructor
  · intro ho
    induction ho with
    | first hpos => exact ⟨0,by omega,rfl⟩
    | next ho hlt ih =>
      obtain ⟨i,hi,rfl⟩ := ih
      rw [hnext hi] at hlt ⊢
      exact ⟨i+1,by omega,rfl⟩
  · rintro ⟨i,hi,rfl⟩
    induction i with
    | zero => exact .first (by omega)
    | succ i ih =>
      have hlt := hnext (i := i) (by omega)
      rw [← hlt]
      exact .next (ih (by omega)) (by omega)

section WellFormed

variable {info : MultibootInfo} {es : List MemoryMapEntry}

theorem passable_iff (h : WellFormedMap mem info es) (hend : image.kernelEnd < 2^31) {i : ℕ}
    (hi : i < es.length) : Passable mem image info.mmapAddr.toNat (24*i) ↔
      (Roomy es[i] → es[i].regionEnd < 2^32-1) := by
  have hsize : es[i].size.toNat = 20 := by rw [h.size es[i] (by simp)]; rfl
  have hround : image.Roundable := hend.le.trans (by decide)
  have hfits := h.fits
  have hlength := h.length
  have hword := info.mmapLength.toNat_lt
  constructor
  · intro hpass hroomy
    have hregion := hpass.region
    rw [h.entry i hi] at hregion
    exact (hregion hroomy).2
  · intro hregion
    refine ⟨by omega,?_,?_⟩ <;> rw [h.entry i hi]
    · omega
    · exact fun hroomy => ⟨hround,hregion hroomy⟩

/-- On a well-formed map no addition overflows exactly when no usable region reaches the last
byte of the 32-bit space. -/
theorem cursor_arithmetic_iff (h : WellFormedMap mem info es) (hend : image.kernelEnd < 2^31) :
    Returns mem image (BumpAllocator.new info) ↔ ∀ e ∈ es, Roomy e → e.regionEnd < 2^32-1 := by
  have hnew := new_eq h
  rw [returns_iff_passable (by omega),hnew]
  simp only [stateAt,entryOffset_iff h]
  constructor
  · intro hall e he
    obtain ⟨i,hi,rfl⟩ := List.getElem_of_mem he
    exact (passable_iff h hend hi).mp (hall _ ⟨i,hi,rfl⟩)
  · rintro hall o ⟨i,hi,rfl⟩
    exact (passable_iff h hend hi).mpr (hall _ (List.getElem_mem hi))

end WellFormed

instance (e : MemoryMapEntry) : Decidable (Roomy e) := inferInstanceAs (Decidable (_ ∧ _ ∧ _))

theorem twoRegions_returns : smallImage.kernelEnd < 2^31 ∧
    Returns (layOut 0x9000 twoRegions) smallImage (BumpAllocator.new (infoOf 0x9000 twoRegions)) :=
  have hmap : WellFormedMap (layOut 0x9000 twoRegions) (infoOf 0x9000 twoRegions) twoRegions :=
    layOut_wellFormed (by decide) (by decide)
  ⟨by decide,(cursor_arithmetic_iff hmap (by decide)).mpr (by decide)⟩

def lastPages : MemoryMapEntry := ⟨20,0xFFFFE000,0,0x2000,0,1⟩

theorem lastPages_overflow :
    WellFormedMap (layOut 0x9000 [lastPages]) (infoOf 0x9000 [lastPages]) [lastPages] ∧
    smallImage.kernelEnd < 2^31 ∧
    allocateFrames (layOut 0x9000 [lastPages]) smallImage 2
      (BumpAllocator.new (infoOf 0x9000 [lastPages])) = .error .overflow := by
  refine ⟨layOut_wellFormed (by decide) (by decide),by decide,?_⟩
  decide +kernel

theorem twoRegions_survives : smallImage.kernelEnd < 2^32 ∧
    Returns (layOut 0x9000 twoRegions) smallImage (BumpAllocator.new (infoOf 0x9000 twoRegions)) := by
  have hmap : WellFormedMap (layOut 0x9000 twoRegions) (infoOf 0x9000 twoRegions) twoRegions :=
    layOut_wellFormed (by decide) (by decide)
  have hregions : ∀ e ∈ twoRegions, Roomy e → e.regionEnd < 2^32-1 := by decide
  refine ⟨by decide,((walk_survives_iff (by decide)).mpr ?_).1⟩
  rw [new_eq hmap]
  simp only [stateAt,entryOffset_iff hmap]
  rintro o ⟨i,hi,rfl⟩
  exact ⟨(passable_iff hmap (by decide) hi).mpr (hregions _ (List.getElem_mem hi)),by omega⟩

def hugeSize : MemoryMapEntry := ⟨0xFFFFFFFC,0,0,0,0,2⟩

theorem hugeSize_overflow : smallImage.kernelEnd < 2^32 ∧
    allocateFrame (layOut 0x9000 [hugeSize]) smallImage (BumpAllocator.new (infoOf 0x9000 [hugeSize])) =
      .error .overflow := by
  refine ⟨by decide,?_⟩
  decide +kernel

end FrameAllocator
end EnosKernel
