import EnosKernel.FrameRuns
import EnosKernel.RustStr
import EnosKernel.BitFields

/-! The boot report of `memory.rs`, a second walker over the same map.  It adds up the low
halves of the lengths in a 32-bit counter, where the frame allocator decodes both halves. -/
namespace EnosKernel
namespace FrameAllocator

open MachineArith RustStr

/-- What is written to the two outputs, line by line. -/
structure MapReport where
  serial : List (List Char)
  console : List (List Char)
  deriving DecidableEq, Repr

def entryLine (e : MemoryMapEntry) : List Char :=
  "Base: ".toList++hexUpper 10 e.baseAddrLow.toNat++ ", Length: ".toList++
    hexUpper 10 e.lengthLow.toNat++ ", Type: ".toList++decimal e.bufferType.toNat

/-- `total_memory_kb += p_length / 1024` for an available entry. -/
def addLength (e : MemoryMapEntry) (totalMemoryKb : ℕ) : Except Panic ℕ :=
  if e.isAvailable then add 32 totalMemoryKb (e.lengthLow.toNat/1024) else .ok totalMemoryKb

/-- The arithmetic of one turn: the address of the next entry and the new total. -/
def countEntry (mem : Memory) (mmap totalMemoryKb : ℕ) : Except Panic (ℕ × ℕ) := do
  let total ← addLength (entryAt mem mmap) totalMemoryKb
  let stride ← add 32 (entryAt mem mmap).size.toNat 4
  let next ← add 32 mmap stride
  .ok (next,total)

theorem countEntry_next {mem : Memory} {mmap total next total' : ℕ}
    (h : countEntry mem mmap total = .ok (next,total')) : mmap < next := by
  obtain ⟨_,-,h⟩ := bind_eq_ok.mp h
  obtain ⟨stride,hstride,h⟩ := bind_eq_ok.mp h
  obtain ⟨sum,hsum,h⟩ := bind_eq_ok.mp h
  obtain ⟨rfl,-⟩ := add_eq_ok.mp hstride
  obtain ⟨rfl,-⟩ := add_eq_ok.mp hsum
  obtain ⟨rfl,-⟩ := Prod.mk.inj (Except.ok.inj h)
  omega

/-- The loop: the lines of the entries and the total. -/
def reportEntries (mem : Memory) (mmapEnd mmap totalMemoryKb : ℕ) :
    Except Panic (List (List Char) × ℕ) :=
  if mmap < mmapEnd then
    match _h : countEntry mem mmap totalMemoryKb with
    | .error p => .error p
    | .ok (next,total) => do
      let (lines,total) ← reportEntries mem mmapEnd next total
      .ok (entryLine (entryAt mem mmap)::lines,total)
  else .ok ([],totalMemoryKb)
termination_by mmapEnd-mmap
decreasing_by
  have := countEntry_next _h
  omega

theorem reportEntries_of_lt {mem : Memory} {mmapEnd mmap total : ℕ} (h : mmap < mmapEnd) :
    reportEntries mem mmapEnd mmap total = countEntry mem mmap total >>= fun turn =>
      reportEntries mem mmapEnd turn.1 turn.2 >>= fun rest =>
        .ok (entryLine (entryAt mem mmap)::rest.1,rest.2) := by
  rw [reportEntries,if_pos h]
  split <;> simp_all [bind,Except.bind]

/-- The walk of a report from the start of the map to `mmap_addr + mmap_length`. -/
def reportMap (mem : Memory) (info : MultibootInfo) : Except Panic (List (List Char) × ℕ) := do
  let mmapEnd ← add 32 info.mmapAddr.toNat info.mmapLength.toNat
  reportEntries mem mmapEnd info.mmapAddr.toNat 0

def printMemoryMap (mem : Memory) (info : MultibootInfo) : Except Panic MapReport :=
  if info.flags &&& ((1 : UInt32) <<< 6) ≠ 0 then do
    let (lines,totalMemoryKb) ← reportMap mem info
    let summary := "Total Available RAM: ".toList++decimal (totalMemoryKb/1024)++ " MB".toList
    .ok { serial := "Multiboot Memory Map detected!".toList::lines++[summary], console := [summary] }
  else
    let warning := "Warning: No memory map provided by Grub.".toList
    .ok { serial := [warning], console := [warning] }

/-- The multiboot structure announces a map of 24-byte entries, wherever it lies. -/
structure Announces (mem : Memory) (info : MultibootInfo) (es : List MemoryMapEntry) : Prop where
  present : info.flags &&& ((1 : UInt32) <<< 6) ≠ 0
  length : info.mmapLength.toNat = 24*es.length
  entry : ∀ i (h : i < es.length), entryAt mem (info.mmapAddr.toNat+24*i) = es[i]
  size : ∀ e ∈ es, e.size = 20

theorem WellFormedMap.announces {mem : Memory} {info : MultibootInfo} {es : List MemoryMapEntry}
    (h : WellFormedMap mem info es) : Announces mem info es := ⟨h.present,h.length,h.entry,h.size⟩

def sumAvailable (f : MemoryMapEntry → ℕ) (es : List MemoryMapEntry) : ℕ :=
  ((es.filter MemoryMapEntry.isAvailable).map f).sum

theorem sumAvailable_cons (f : MemoryMapEntry → ℕ) (e : MemoryMapEntry) (es : List MemoryMapEntry) :
    sumAvailable f (e::es) = (if e.isAvailable then f e else 0)+sumAvailable f es := by
  unfold sumAvailable
  by_cases hav : e.isAvailable <;> simp [hav]

def lowKb (es : List MemoryMapEntry) : ℕ := sumAvailable (fun e => e.lengthLow.toNat/1024) es

/-- What the lengths come to as the allocator decodes them, rounded down entry by entry. -/
def availableKb (es : List MemoryMapEntry) : ℕ := sumAvailable (fun e => e.regionLength/1024) es

theorem regionLength_eq (e : MemoryMapEntry) :
    e.regionLength = e.lengthLow.toNat+2^32*e.lengthHigh.toNat := by
  rw [MemoryMapEntry.regionLength,Nat.shiftLeft_eq,Nat.mul_comm,Nat.or_comm,
    BitFields.or_eq_add e.lengthLow.toNat_lt,Nat.add_comm]

theorem availableKb_eq (es : List MemoryMapEntry) :
    availableKb es = lowKb es+2^22*sumAvailable (fun e => e.lengthHigh.toNat) es := by
  induction es with
  | nil => rfl
  | cons e es ih =>
    simp only [availableKb,lowKb] at ih ⊢
    rw [sumAvailable_cons,sumAvailable_cons,sumAvailable_cons,ih,regionLength_eq]
    split_ifs <;> omega

theorem mul_availableKb_le (es : List MemoryMapEntry) :
    1024*availableKb es ≤ sumAvailable MemoryMapEntry.regionLength es := by
  induction es with
  | nil => rfl
  | cons e es ih =>
    simp only [availableKb] at ih ⊢
    rw [sumAvailable_cons,sumAvailable_cons]
    split_ifs <;> omega

theorem sumAvailable_eq_zero {f : MemoryMapEntry → ℕ} {es : List MemoryMapEntry} :
    sumAvailable f es = 0 ↔ ∀ e ∈ es, e.isAvailable → f e = 0 := by
  rw [sumAvailable,List.sum_eq_zero_iff,List.forall_mem_map]
  simp

section

variable {mem : Memory} {info : MultibootInfo} {es : List MemoryMapEntry}

theorem addLength_ok {e : MemoryMapEntry} {total : ℕ}
    (h : total+(if e.isAvailable then e.lengthLow.toNat/1024 else 0) < 2^32) :
    addLength e total = .ok (total+if e.isAvailable then e.lengthLow.toNat/1024 else 0) := by
  unfold addLength
  split_ifs at * with hav
  · exact add_ok h
  · rfl

/-- The loop from some entry on, as long as the total fits. -/
theorem reportEntries_eq (h : Announces mem info es)
    (hend : info.mmapAddr.toNat+24*es.length < 2^32) {before after : List MemoryMapEntry}
    (hes : es = before++after) (total : ℕ) (hfits : total+lowKb after < 2^32) :
    reportEntries mem (info.mmapAddr.toNat+24*es.length) (info.mmapAddr.toNat+24*before.length) total =
      .ok (after.map entryLine,total+lowKb after) := by
  induction after generalizing before total with
  | nil =>
    rw [List.append_nil] at hes
    rw [reportEntries,if_neg (by rw [hes]; exact lt_irrefl _)]
    rfl
  | cons e after ih =>
    have hlen : es.length = before.length+(after.length+1) := by simp [hes]
    have hentry : entryAt mem (info.mmapAddr.toNat+24*before.length) = e := by
      rw [h.entry before.length (by omega)]
      simp [hes]
    have hsize : e.size.toNat = 20 := by rw [h.size e (by simp [hes])]; rfl
    simp only [lowKb,sumAvailable_cons] at hfits
    have hcount : countEntry mem (info.mmapAddr.toNat+24*before.length) total =
        .ok (info.mmapAddr.toNat+24*(before++[e]).length,
          total+if e.isAvailable then e.lengthLow.toNat/1024 else 0) := by
      rw [countEntry,hentry,addLength_ok (by omega),ok_bind,hsize,add_ok (by norm_num),ok_bind,
        add_ok (by omega),ok_bind]
      simp [Nat.mul_add,Nat.add_assoc]
    have hrest : reportEntries mem (info.mmapAddr.toNat+24*es.length)
        (info.mmapAddr.toNat+24*(before++[e]).length)
        (total+if e.isAvailable then e.lengthLow.toNat/1024 else 0) = .ok (after.map entryLine,
          total+(if e.isAvailable then e.lengthLow.toNat/1024 else 0)+lowKb after) :=
      ih (by simp [hes]) _ (by simp only [lowKb]; omega)
    rw [reportEntries_of_lt (by omega),hcount,ok_bind,hrest,hentry]
    simp only [lowKb,sumAvailable_cons,List.map_cons,Nat.add_assoc]
    rfl

theorem reportMap_eq (h : Announces mem info es) (hend : info.mmapAddr.toNat+24*es.length < 2^32)
    (hfits : lowKb es < 2^32) : reportMap mem info = .ok (es.map entryLine,lowKb es) := by
  have hrun := reportEntries_eq h hend (List.nil_append es).symm 0 (by omega)
  rw [reportMap,h.length,add_ok hend,ok_bind]
  simpa using hrun

/-- For a total below 2^42 bytes the report is right exactly when the map ends below 4 GiB and
no available region is 4 GiB long or longer. -/
theorem reported_ram_iff (h : Announces mem info es)
    (htotal : sumAvailable MemoryMapEntry.regionLength es < 2^42) :
    (∃ lines, reportMap mem info = .ok (lines,availableKb es)) ↔
      info.mmapAddr.toNat+24*es.length < 2^32 ∧ ∀ e ∈ es, e.isAvailable → e.regionLength < 2^32 := by
  have hle := mul_availableKb_le es
  have hsum := availableKb_eq es
  by_cases hend : info.mmapAddr.toNat+24*es.length < 2^32
  · have hhigh : availableKb es = lowKb es ↔ ∀ e ∈ es, e.isAvailable → e.regionLength < 2^32 := by
      rw [show availableKb es = lowKb es ↔ sumAvailable (fun e => e.lengthHigh.toNat) es = 0 by omega,
        sumAvailable_eq_zero]
      refine forall₃_congr fun e _ _ => ?_
      have hlow := e.lengthLow.toNat_lt
      have hlength := regionLength_eq e
      omega
    rw [reportMap_eq h hend (by omega),and_iff_right hend,← hhigh]
    simp [eq_comm]
  · refine iff_of_false ?_ fun hc => hend hc.1
    rw [reportMap,h.length,add_overflow (not_lt.mp hend)]
    simp [bind,Except.bind]

end

theorem twoRegions_reported : sumAvailable MemoryMapEntry.regionLength twoRegions < 2^42 ∧
    ∃ lines, reportMap (layOut 0x9000 twoRegions) (infoOf 0x9000 twoRegions) =
      .ok (lines,availableKb twoRegions) := by
  have hmap : WellFormedMap (layOut 0x9000 twoRegions) (infoOf 0x9000 twoRegions) twoRegions :=
    layOut_wellFormed (by decide) (by decide)
  have htotal : sumAvailable MemoryMapEntry.regionLength twoRegions < 2^42 := by decide
  exact ⟨htotal,(reported_ram_iff hmap.announces htotal).mpr ⟨by decide,by decide⟩⟩

def highRegion : MemoryMapEntry := ⟨20,0,1,0,1,1⟩

theorem highRegion_unreported :
    WellFormedMap (layOut 0x9000 [highRegion]) (infoOf 0x9000 [highRegion]) [highRegion] ∧
    sumAvailable MemoryMapEntry.regionLength [highRegion] < 2^42 ∧ availableKb [highRegion] = 4194304 ∧
    reportMap (layOut 0x9000 [highRegion]) (infoOf 0x9000 [highRegion]) =
      .ok ([entryLine highRegion],0) :=
  ⟨layOut_wellFormed (by decide) (by decide),by decide,by decide,by decide +kernel⟩

end FrameAllocator
end EnosKernel
