import EnosKernel.MachineArith

/-! The physical frame allocator of `memory.rs`.  The multiboot memory map is read from
byte-addressed memory, entry by entry, and every unchecked addition may panic. -/
namespace EnosKernel
namespace FrameAllocator

open MachineArith

def pageSize : ℕ := 4096
def lowMemoryReservedEnd : ℕ := 0x00100000

abbrev Memory := ℕ → UInt8

/-- The fields of the multiboot information structure that the allocator reads. -/
structure MultibootInfo where
  flags : UInt32
  mmapLength : UInt32
  mmapAddr : UInt32

structure MemoryMapEntry where
  size : UInt32
  baseAddrLow : UInt32
  baseAddrHigh : UInt32
  lengthLow : UInt32
  lengthHigh : UInt32
  bufferType : UInt32
  deriving DecidableEq, Repr

structure PhysFrame where
  startAddress : ℕ
  deriving DecidableEq, Repr

/-- The linker symbols `_kernel_start` and `_kernel_end`. -/
structure KernelImage where
  kernelStart : ℕ
  kernelEnd : ℕ

def readU32 (mem : Memory) (addr : ℕ) : UInt32 :=
  UInt32.ofNat ((mem addr).toNat + 2^8*(mem (addr+1)).toNat + 2^16*(mem (addr+2)).toNat +
    2^24*(mem (addr+3)).toNat)

/-- Reading a `repr(C, packed)` entry of six words. -/
def entryAt (mem : Memory) (addr : ℕ) : MemoryMapEntry where
  size := readU32 mem addr
  baseAddrLow := readU32 mem (addr+4)
  baseAddrHigh := readU32 mem (addr+8)
  lengthLow := readU32 mem (addr+12)
  lengthHigh := readU32 mem (addr+16)
  bufferType := readU32 mem (addr+20)

namespace MemoryMapEntry

def isAvailable (e : MemoryMapEntry) : Bool := e.bufferType == 1

def regionStart (e : MemoryMapEntry) : ℕ := e.baseAddrLow.toNat ||| (e.baseAddrHigh.toNat <<< 32)

def regionLength (e : MemoryMapEntry) : ℕ := e.lengthLow.toNat ||| (e.lengthHigh.toNat <<< 32)

def regionEnd (e : MemoryMapEntry) : ℕ := saturatingAdd 64 e.regionStart e.regionLength

def allocationFloor (e : MemoryMapEntry) : ℕ := max e.regionStart lowMemoryReservedEnd

end MemoryMapEntry

structure BumpAllocator where
  memoryMapAddr : ℕ
  memoryMapLength : ℕ
  nextFreeFrame : Option ℕ
  currentMmapOffset : ℕ
  deriving DecidableEq, Repr

/-- `value + align - remainder` for a value that is not aligned yet. -/
def alignUp (value align : ℕ) : Except Panic ℕ :=
  let remainder := value % align
  if remainder = 0 then .ok value
  else do
    let sum ← add 64 value align
    .ok (sum-remainder)

def kernelEndAligned (image : KernelImage) : Except Panic ℕ :=
  if image.kernelEnd % pageSize = 0 then .ok image.kernelEnd
  else add 32 (image.kernelEnd - image.kernelEnd % pageSize) pageSize

namespace BumpAllocator

def new (info : MultibootInfo) : BumpAllocator :=
  if info.flags &&& ((1 : UInt32) <<< 6) ≠ 0 then
    { memoryMapAddr := info.mmapAddr.toNat
      memoryMapLength := info.mmapLength.toNat
      nextFreeFrame := none
      currentMmapOffset := 0 }
  else
    { memoryMapAddr := 0
      memoryMapLength := 0
      nextFreeFrame := none
      currentMmapOffset := 0 }

/-- One turn of the `while` loop: it returns a frame or leaves an entry behind. -/
inductive Visit
  | frame (f : PhysFrame) (a : BumpAllocator)
  | next (a : BumpAllocator)

/-- `current_mmap_offset += entry.size + 4; next_free_frame = None`. -/
def skipEntry (a : BumpAllocator) (e : MemoryMapEntry) : Except Panic Visit := do
  let stride ← add 32 e.size.toNat 4
  let offset ← add 32 a.currentMmapOffset stride
  .ok (.next { a with currentMmapOffset := offset, nextFreeFrame := none })

/-- The cursor of the present region, placed at its first page on the first visit. -/
def cursor (a : BumpAllocator) (e : MemoryMapEntry) : Except Panic ℕ :=
  match a.nextFreeFrame with
  | some frame => .ok frame
  | none => do
    let aligned ← alignUp e.allocationFloor pageSize
    .ok (truncate 32 aligned)

/-- Skip over the kernel image if the frame at `frame` touches it. -/
def skipKernel (image : KernelImage) (imageEnd frame : ℕ) : ℕ :=
  if frame < imageEnd ∧ image.kernelStart < saturatingAdd 32 frame pageSize then imageEnd else frame

/-- The rest of the turn for an entry that has room below 4 GiB. -/
def takeFrame (image : KernelImage) (a : BumpAllocator) (e : MemoryMapEntry) : Except Panic Visit := do
  let frame ← a.cursor e
  let imageEnd ← kernelEndAligned image
  let candidate := skipKernel image imageEnd frame
  let frameEnd := saturatingAdd 32 candidate pageSize
  if frameEnd ≤ e.regionEnd ∧ candidate < frameEnd then do
    let nextFree ← add 32 candidate pageSize
    .ok (.frame ⟨candidate⟩ { a with nextFreeFrame := some nextFree })
  else a.skipEntry e

def visitEntry (image : KernelImage) (a : BumpAllocator) (e : MemoryMapEntry) : Except Panic Visit :=
  if ¬ e.isAvailable then a.skipEntry e
  else if e.regionEnd ≤ e.allocationFloor ∨ 2^32-1 < e.allocationFloor then a.skipEntry e
  else takeFrame image a e

def visit (mem : Memory) (image : KernelImage) (a : BumpAllocator) : Except Panic Visit := do
  let mmap ← add 32 a.memoryMapAddr a.currentMmapOffset
  visitEntry image a (entryAt mem mmap)

theorem skipEntry_next {a a' : BumpAllocator} {e : MemoryMapEntry} (h : a.skipEntry e = .ok (.next a')) :
    a'.memoryMapLength = a.memoryMapLength ∧ a.currentMmapOffset < a'.currentMmapOffset := by
  obtain ⟨stride,hs,h⟩ := bind_eq_ok.mp h
  obtain ⟨offset,ho,h⟩ := bind_eq_ok.mp h
  have h₁ := add_eq_ok.mp hs
  have h₂ := add_eq_ok.mp ho
  simp only [Except.ok.injEq,Visit.next.injEq] at h
  subst h
  exact ⟨rfl,by simp only; omega⟩

theorem visit_next {mem : Memory} {image : KernelImage} {a a' : BumpAllocator}
    (h : visit mem image a = .ok (.next a')) :
    a'.memoryMapLength = a.memoryMapLength ∧ a.currentMmapOffset < a'.currentMmapOffset := by
  obtain ⟨mmap,-,h⟩ := bind_eq_ok.mp h
  unfold visitEntry at h
  split at h
  · exact skipEntry_next h
  split at h
  · exact skipEntry_next h
  obtain ⟨frame,-,h⟩ := bind_eq_ok.mp h
  obtain ⟨imageEnd,-,h⟩ := bind_eq_ok.mp h
  dsimp only at h
  split at h
  · obtain ⟨nextFree,-,h⟩ := bind_eq_ok.mp h
    simp at h
  · exact skipEntry_next h

/-- The whole call.  An entry left behind moves the offset forward, so the walk ends. -/
def allocateFrame (mem : Memory) (image : KernelImage) (a : BumpAllocator) :
    Except Panic (Option PhysFrame × BumpAllocator) :=
  if a.currentMmapOffset < a.memoryMapLength then
    match _hv : visit mem image a with
    | .error p => .error p
    | .ok (.frame f a') => .ok (some f,a')
    | .ok (.next a') => allocateFrame mem image a'
  else .ok (none,a)
termination_by a.memoryMapLength - a.currentMmapOffset
decreasing_by
  have := visit_next _hv
  omega

def allocateFrames (mem : Memory) (image : KernelImage) :
    ℕ → BumpAllocator → Except Panic (List (Option PhysFrame) × BumpAllocator)
  | 0, a => .ok ([],a)
  | n+1, a => do
    let (frame,a) ← allocateFrame mem image a
    let (frames,a) ← allocateFrames mem image n a
    .ok (frame::frames,a)

end BumpAllocator
end FrameAllocator
end EnosKernel
