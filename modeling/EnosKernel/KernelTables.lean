import EnosKernel.Ia32Tables
import EnosKernel.ThreadContexts

/-! The segment descriptors and the task state segment that boot hands to the processor, and the
segments and ports that they open to a program in ring 3. -/
namespace EnosKernel
namespace Tables

open Ia32

structure GdtEntry where
  limitLow : UInt16
  baseLow : UInt16
  baseMiddle : UInt8
  access : UInt8
  granularity : UInt8
  baseHigh : UInt8
  deriving DecidableEq, Repr

namespace GdtEntry

def empty : GdtEntry := ⟨0,0,0,0,0,0⟩

def new (base limit : UInt32) (access gran : UInt8) : GdtEntry where
  limitLow := (limit &&& 0xFFFF).toUInt16
  baseLow := (base &&& 0xFFFF).toUInt16
  baseMiddle := (base >>> 16 &&& 0xFF).toUInt8
  access := access
  granularity := (limit >>> 16 &&& 0x0F).toUInt8 ||| (gran &&& 0xF0)
  baseHigh := (base >>> 24 &&& 0xFF).toUInt8

/-- The packed layout. -/
def bytes (e : GdtEntry) : List UInt8 :=
  bytes16 e.limitLow++bytes16 e.baseLow++[e.baseMiddle,e.access,e.granularity,e.baseHigh]

theorem bytes_length (e : GdtEntry) : e.bytes.length = 8 := rfl

section

variable (base limit : UInt32) (gran : UInt8)

theorem granularity_high :
    ((limit >>> 16 &&& 0x0F).toUInt8 ||| (gran &&& 0xF0)) &&& 0xF0 = gran &&& 0xF0 := by
  apply UInt8.eq_of_toBitVec_eq
  ext i hi
  interval_cases i <;> simp

theorem granularity_low :
    ((limit >>> 16 &&& 0x0F).toUInt8 ||| (gran &&& (0xF0 : UInt8))) &&& (0x0F : UInt8) =
      (limit >>> 16 &&& 0x0F).toUInt8 := by
  apply UInt8.eq_of_toBitVec_eq
  ext i hi
  interval_cases i <;> simp

theorem base_recombines :
    ByteMemory.ofBytes (base &&& 0xFFFF).toUInt16.toUInt8 ((base &&& 0xFFFF).toUInt16 >>> 8).toUInt8
      (base >>> 16 &&& 0xFF).toUInt8 (base >>> 24 &&& 0xFF).toUInt8 = base := by
  have hbase := base.toNat_lt
  have hlow := low16_toNat base
  have hmiddle : (base >>> 16 &&& 0xFF).toUInt8.toNat = _ := cut_toNat base (n := 16) (by decide) 8 le_rfl
  have hhigh : (base >>> 24 &&& 0xFF).toUInt8.toNat = _ := cut_toNat base (n := 24) (by decide) 8 le_rfl
  have hbytes := bytes16_toNat (base &&& 0xFFFF).toUInt16
  simp only [UInt32.reduceToNat] at hmiddle hhigh
  apply UInt32.toNat_inj.mp
  rw [ByteMemory.ofBytes,UInt32.toNat_ofNat',hmiddle,hhigh]
  omega

theorem limit_recombines : ByteMemory.ofBytes (limit &&& 0xFFFF).toUInt16.toUInt8
    ((limit &&& 0xFFFF).toUInt16 >>> 8).toUInt8 (limit >>> 16 &&& 0x0F).toUInt8 0 = limit &&& 0xFFFFF := by
  have hlow := low16_toNat limit
  have hhigh : (limit >>> 16 &&& 0x0F).toUInt8.toNat = _ := cut_toNat limit (n := 16) (by decide) 4 (by omega)
  have hbytes := bytes16_toNat (limit &&& 0xFFFF).toUInt16
  have hmask : (limit &&& 0xFFFFF).toNat = limit.toNat%2^20 := by
    rw [UInt32.toNat_and]
    exact Nat.and_two_pow_sub_one_eq_mod _ 20
  simp only [UInt32.reduceToNat] at hhigh
  apply UInt32.toNat_inj.mp
  rw [ByteMemory.ofBytes,UInt32.toNat_ofNat',hhigh,hmask,UInt8.toNat_zero]
  omega

/-- The processor finds the arguments of `new` again, the limit with its twenty bits. -/
theorem segment_new (access : UInt8) : Segment.ofBytes (new base limit access gran).bytes =
    some ⟨base,limit &&& 0xFFFFF,access,gran &&& 0xF0⟩ := by
  simp only [new,bytes,bytes16,List.cons_append,List.nil_append,Segment.ofBytes,base_recombines,granularity_high,
    granularity_low,limit_recombines]

end

end GdtEntry

/-- The fields that are not zero for good.  The last two words are `iopb` and `_pad`. -/
structure TaskStateSegment where
  esp0 : UInt32
  ss0 : UInt16
  iopb : UInt16
  deriving DecidableEq, Repr

namespace TaskStateSegment

def new : TaskStateSegment := ⟨0,0x10,104⟩

/-- The packed layout: four bytes of `link` and `res0`; behind `ss0` all is zero up to `iopb`. -/
def bytes (t : TaskStateSegment) : List UInt8 :=
  List.replicate 4 0++ByteMemory.wordBytes t.esp0++bytes16 t.ss0++List.replicate 90 0++bytes16 t.iopb++bytes16 0

end TaskStateSegment

/-- `gdt::init`: the entries, for the address of the task state segment. -/
def gdtEntries (tssBase : UInt32) : List GdtEntry :=
  let entries := List.replicate 6 .empty
  let entries := entries.set 1 (.new 0 0xFFFFF 0x9A 0xCF)
  let entries := entries.set 2 (.new 0 0xFFFFF 0x92 0xCF)
  let entries := entries.set 3 (.new 0 0xFFFFF 0xFA 0xCF)
  let entries := entries.set 4 (.new 0 0xFFFFF 0xF2 0xCF)
  entries.set 5 (.new tssBase (104-1) 0x89 0x40)

def gdt (tssBase : UInt32) : Table := ⟨6*8-1,(gdtEntries tssBase).flatMap GdtEntry.bytes⟩

/-- `gdt::set_interrupt_stack` for the stack that the heap has returned. -/
def setInterruptStack (t : TaskStateSegment) (intStack : UInt32) : TaskStateSegment := { t with esp0 := intStack+8192 }

def segments (tssBase : UInt32) : List Segment :=
  [⟨0,0,0,0⟩,⟨0,0xFFFFF,0x9A,0xC0⟩,⟨0,0xFFFFF,0x92,0xC0⟩,⟨0,0xFFFFF,0xFA,0xC0⟩,⟨0,0xFFFFF,0xF2,0xC0⟩,
   ⟨tssBase,103,0x89,0x40⟩]

theorem bind_eq_of_map_some {α β : Type*} {f : α → Option β} {x : Option α} {y : Option β} (h : x.map f = y.map some) :
    x.bind f = y := by cases x <;> cases y <;> simp_all

theorem segmentAt_gdt (tssBase : UInt32) (selector : UInt16) : segmentAt (gdt tssBase) selector =
    if selector &&& 4 = 0 then (segments tssBase)[(selector >>> 3).toNat]? else none := by
  have hsegments : (gdtEntries tssBase).map (fun e => Segment.ofBytes e.bytes) = (segments tssBase).map some := by
    have hempty : Segment.ofBytes GdtEntry.empty.bytes = some ⟨0,0,0,0⟩ := rfl
    simp [gdtEntries,segments,GdtEntry.segment_new,hempty]
    decide
  have hlength : (gdtEntries tssBase).length = 6 := rfl
  unfold segmentAt
  split_ifs with hlocal
  · rw [gdt,Table.descriptor_flatMap GdtEntry.bytes_length (by rw [hlength]; rfl),Option.bind_map]
    have hentry := congrArg (fun l => l[(selector >>> 3).toNat]?) hsegments
    simp only [List.getElem?_map] at hentry
    exact bind_eq_of_map_some hentry
  · rfl

def accesses : List UInt8 := [0,0x9A,0x92,0xFA,0xF2,0x89]

/-- The checks look at nothing but the access byte, which the address of the task state segment
does not touch. -/
theorem exists_segmentAt {P : UInt8 → Prop} (tssBase : UInt32) (selector : UInt16) :
    (∃ s ∈ segmentAt (gdt tssBase) selector, P s.access) ↔
      selector &&& 4 = 0 ∧ ∃ a ∈ accesses[(selector >>> 3).toNat]?, P a := by
  have hmap : (segments tssBase).map Segment.access = accesses := rfl
  rw [segmentAt_gdt,← hmap,List.getElem?_map]
  split_ifs with hlocal
  · simp [hlocal]
  · simp [hlocal]

theorem loads_small : ∀ cpl : Fin 4, ∀ selector : Fin 48,
    let cpl := UInt8.ofNat cpl
    let selector := UInt16.ofNat selector
    (LoadsData (gdt 0) cpl selector ↔ selector < 4 ∨ cpl = 0 ∧ selector ∈ [0x08,0x10] ∨
      selector ∈ [0x18,0x19,0x1A,0x1B,0x20,0x21,0x22,0x23]) ∧
    (LoadsStack (gdt 0) cpl selector ↔ cpl = 0 ∧ selector = 0x10 ∨ cpl = 3 ∧ selector = 0x23) ∧
    (ReturnsTo (gdt 0) cpl selector ↔ cpl = 0 ∧ selector = 0x08 ∨ selector = 0x1B) := by
  unfold LoadsData LoadsStack ReturnsTo
  decide +kernel

theorem gdt_congr (tssBase : UInt32) (cpl : UInt8) (selector : UInt16) :
    (LoadsData (gdt tssBase) cpl selector ↔ LoadsData (gdt 0) cpl selector) ∧
    (LoadsStack (gdt tssBase) cpl selector ↔ LoadsStack (gdt 0) cpl selector) ∧
    (ReturnsTo (gdt tssBase) cpl selector ↔ ReturnsTo (gdt 0) cpl selector) := by
  have hsame (P : UInt8 → Prop) : (∃ s ∈ segmentAt (gdt tssBase) selector, P s.access) ↔
      ∃ s ∈ segmentAt (gdt 0) selector, P s.access :=
    (exists_segmentAt tssBase selector).trans (exists_segmentAt 0 selector).symm
  let segment (a : UInt8) : Segment := ⟨0,0,a,0⟩
  refine ⟨or_congr_right ?_,and_congr_right fun _ => ?_,and_congr_right fun _ => and_congr_right fun _ => ?_⟩
  · exact hsame fun a => (segment a).CodeOrData ∧ (segment a).Readable ∧ (segment a).Present ∧
      ((segment a).Conforming ∨ cpl ≤ (segment a).dpl ∧ rpl selector ≤ (segment a).dpl)
  · exact hsame fun a => (segment a).WritableData ∧ (segment a).Present ∧ (segment a).dpl = cpl ∧ rpl selector = cpl
  · exact hsame fun a => (segment a).Code ∧ (segment a).Present ∧
      if (segment a).Conforming then (segment a).dpl ≤ rpl selector else (segment a).dpl = rpl selector

theorem segmentAt_large (tssBase : UInt32) {selector : UInt16} (h : 48 ≤ selector.toNat) :
    segmentAt (gdt tssBase) selector = none := by
  have hindex : 6 ≤ (selector >>> 3).toNat := by
    rw [UInt16.toNat_shiftRight]
    simp only [UInt16.reduceToNat,Nat.shiftRight_eq_div_pow,Nat.reduceMod,Nat.reducePow]
    omega
  rw [segmentAt_gdt,List.getElem?_eq_none (show (segments tssBase).length ≤ _ from hindex),ite_self]

/-- Which selectors the processor takes, wherever the task state segment lies: ring 3 loads the
null selector and the two user segments and nothing else, and returns to no other code segment
than its own; every segment of code or data spans the whole address space. -/
theorem segments_confine (tssBase : UInt32) {cpl : UInt8} (hcpl : cpl ≤ 3) (selector : UInt16) :
    (LoadsData (gdt tssBase) cpl selector ↔ selector < 4 ∨ cpl = 0 ∧ selector ∈ [0x08,0x10] ∨
      selector ∈ [0x18,0x19,0x1A,0x1B,0x20,0x21,0x22,0x23]) ∧
    (LoadsStack (gdt tssBase) cpl selector ↔ cpl = 0 ∧ selector = 0x10 ∨ cpl = 3 ∧ selector = 0x23) ∧
    (ReturnsTo (gdt tssBase) cpl selector ↔ cpl = 0 ∧ selector = 0x08 ∨ selector = 0x1B) ∧
    ∀ s ∈ segmentAt (gdt tssBase) selector, s.CodeOrData → s.base = 0 ∧ s.last = 2^32-1 := by
  obtain ⟨hdata,hstack,hcode⟩ := gdt_congr tssBase cpl selector
  rw [hdata,hstack,hcode]
  have hflat : ∀ s ∈ segmentAt (gdt tssBase) selector, s.CodeOrData → s.base = 0 ∧ s.last = 2^32-1 := by
    intro s hs hcodeOrData
    rw [segmentAt_gdt] at hs
    split_ifs at hs
    · have hmem := List.mem_of_getElem? hs
      simp only [segments,List.mem_cons,List.not_mem_nil,or_false] at hmem
      rcases hmem with rfl | rfl | rfl | rfl | rfl | rfl
      · exact absurd rfl hcodeOrData
      iterate 4 exact ⟨rfl,rfl⟩
      exact absurd (show (0x89 : UInt8) &&& 0x10 = 0 by decide) hcodeOrData
    · cases hs
  by_cases hsmall : selector.toNat < 48
  · have hsel : UInt16.ofNat selector.toNat = selector := by simp
    have hlevel : UInt8.ofNat cpl.toNat = cpl := by simp
    have hcases := loads_small ⟨cpl.toNat,Nat.lt_succ_of_le hcpl⟩ ⟨selector.toNat,hsmall⟩
    simp only [hsel,hlevel] at hcases
    exact ⟨hcases.1,hcases.2.1,hcases.2.2,hflat⟩
  · have hnone := segmentAt_large 0 (not_lt.mp hsmall)
    have hnull : selector >>> 2 ≠ 0 := by
      intro hzero
      have hvalue := congrArg UInt16.toNat hzero
      simp only [UInt16.toNat_shiftRight,UInt16.reduceToNat,Nat.shiftRight_eq_div_pow,Nat.reduceMod,
        Nat.reducePow] at hvalue
      omega
    have hlow : ¬ selector < 4 := fun hlt => hsmall (lt_trans (show selector.toNat < 4 from hlt) (by decide))
    have hnot (x : UInt16) (hx : x.toNat < 48) : selector ≠ x := by
      rintro rfl
      exact hsmall hx
    simp only [LoadsData,LoadsStack,ReturnsTo,hnone,hnull,hlow]
    simp [hnot 0x08 (by decide),hnot 0x10 (by decide),hnot 0x18 (by decide),hnot 0x19 (by decide),hnot 0x1A (by decide),
      hnot 0x1B (by decide),hnot 0x20 (by decide),hnot 0x21 (by decide),hnot 0x22 (by decide),hnot 0x23 (by decide)]
    exact hflat

theorem segments_confine_user :
    (3 : UInt8) ≤ 3 ∧ ¬ LoadsData (gdt 0x200000) 3 0x10 ∧ LoadsStack (gdt 0x200000) 3 0x23 :=
  ⟨by decide,fun h => absurd ((segments_confine 0x200000 (by decide) 0x10).1.mp h) (by decide),
    (segments_confine 0x200000 (by decide) 0x23).2.1.mpr (by decide)⟩

def tss (intStack : UInt32) : TaskStateSegment := setInterruptStack .new intStack

theorem tss_byte (intStack : UInt32) {i : ℕ} (hi : i < 104) : (tss intStack).bytes.getD i 0 =
    if 4 ≤ i ∧ i < 8 then ByteMemory.byteOf (intStack+8192) (i-4) else if i = 8 then 0x10 else if i = 100 then 0x68
    else 0 := by
  have hbytes : (tss intStack).bytes = List.replicate 4 0++ByteMemory.wordBytes (intStack+8192)++[0x10,0]++
      List.replicate 90 0++[0x68,0]++[0,0] := by
    have hss0 : bytes16 0x10 = [0x10,0] := by decide
    have hiopb : bytes16 104 = [0x68,0] := by decide
    have hpad : bytes16 0 = [0,0] := by decide
    rw [← hss0,← hiopb,← hpad]
    rfl
  rw [hbytes]
  interval_cases i <;> rfl

theorem byteOf_testBit (x : UInt32) (i : ℕ) {j : ℕ} (hj : j < 8) :
    (ByteMemory.byteOf x i).toNat.testBit j = x.toNat.testBit (8*i+j) := by
  have hpow : 256^i = 2^(8*i) := by rw [Nat.pow_mul]
  rw [ByteMemory.byteOf,UInt8.toNat_ofNat',hpow,Nat.testBit_mod_two_pow,Nat.testBit_div_two_pow]
  simp [hj,Nat.add_comm]

theorem kernelStack_tss (l : Contexts.Layout) : kernelStack (tss l.interruptStack).bytes = l.tss := by
  simp only [kernelStack,
    tss_byte l.interruptStack (show 4 < 104 by decide),tss_byte l.interruptStack (show 5 < 104 by decide),
    tss_byte l.interruptStack (show 6 < 104 by decide),tss_byte l.interruptStack (show 7 < 104 by decide),
    tss_byte l.interruptStack (show 8 < 104 by decide),tss_byte l.interruptStack (show 9 < 104 by decide)]
  simp [ByteMemory.ofBytes_byteOf,Contexts.Layout.tss,Contexts.kernelData,Scheduler.stackSize]
  decide

theorem portBit_tss (intStack : UInt32) (port : ℕ) : portBit (tss intStack).bytes 103 port =
    if port < 824 then some (if 32 ≤ port ∧ port < 64 then (intStack+8192).toNat.testBit (port-32)
      else decide (port ∈ [68,803,805,806])) else none := by
  have hplace :
      ((tss intStack).bytes.getD 102 0).toNat+256*((tss intStack).bytes.getD 103 0).toNat+port/8 = port/8 := by
    rw [tss_byte intStack (by decide),tss_byte intStack (by decide)]
    simp
  simp only [portBit,hplace]
  by_cases hport : port < 824
  · rw [if_pos (by omega),if_pos hport,tss_byte intStack (by omega)]
    congr 1
    by_cases hstack : 32 ≤ port ∧ port < 64
    · rw [if_pos (by omega),if_pos hstack,byteOf_testBit _ _ (by omega)]
      congr 1
      omega
    rw [if_neg (by omega),if_neg hstack]
    -- only the bytes of `ss0` and `iopb` are not zero
    by_cases hss0 : port/8 = 8
    · rw [if_pos hss0]
      obtain ⟨r,hr,rfl⟩ : ∃ r < 8, port = 64+r := ⟨port-64,by omega,by omega⟩
      interval_cases r <;> decide
    rw [if_neg hss0]
    by_cases hiopb : port/8 = 100
    · rw [if_pos hiopb]
      obtain ⟨r,hr,rfl⟩ : ∃ r < 8, port = 800+r := ⟨port-800,by omega,by omega⟩
      interval_cases r <;> decide
    rw [if_neg hiopb,UInt8.toNat_zero,Nat.zero_testBit,eq_comm,decide_eq_false_iff_not]
    simp only [List.mem_cons,List.not_mem_nil,or_false]
    omega
  · rw [if_neg (by omega),if_neg hport]

/-- The ports that a program in ring 3 may use.  The processor looks for the place of the port map
in the last word of the segment, which is `_pad`, and so reads the segment itself as the map: of
the first 824 ports it refuses those whose bit is set in the interrupt stack's address, in `ss0` or
in `iopb`, and no others. -/
theorem user_ports_iff (intStack : UInt32) {eflags : UInt32} (hiopl : eflags >>> 12 &&& 3 = 0) (port : ℕ) :
    MayUsePort (tss intStack).bytes 103 3 eflags port ↔ port < 824 ∧
      ¬ (32 ≤ port ∧ port < 64 ∧ (intStack+8192).toNat.testBit (port-32)) ∧ port ∉ [68,803,805,806] := by
  have hlevel : ¬ UInt8.toUInt32 3 ≤ eflags >>> 12 &&& 3 := by
    rw [hiopl]
    decide
  rw [MayUsePort,or_iff_right hlevel,portBit_tss]
  by_cases hport : port < 824
  · by_cases hstack : 32 ≤ port ∧ port < 64
    · have hnot : port ∉ [68,803,805,806] := by
        simp only [List.mem_cons,List.not_mem_nil,or_false]
        omega
      simp [hport,hstack,hnot]
    · have hfree : ¬(32 ≤ port ∧ port < 64 ∧ (intStack+8192).toNat.testBit (port-32) = true) :=
        fun h => hstack ⟨h.1,h.2.1⟩
      rw [if_pos hport,if_neg hstack,Option.some.injEq,decide_eq_false_iff_not]
      exact ⟨fun h => ⟨hport,hfree,h⟩,fun h => h.2.2⟩
  · simp [hport]

theorem user_ports_keyboard : (0x202 : UInt32) >>> 12 &&& 3 = 0 ∧
    MayUsePort (tss 0x160000).bytes 103 3 0x202 0x64 ∧ ¬ MayUsePort (tss 0x160000).bytes 103 3 0x202 0x3F8 :=
  ⟨by decide,(user_ports_iff 0x160000 (by decide) 0x64).mpr (by decide),
    fun h => absurd ((user_ports_iff 0x160000 (by decide) 0x3F8).mp h) (by decide)⟩

end Tables
end EnosKernel
