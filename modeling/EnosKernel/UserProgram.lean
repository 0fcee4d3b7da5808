import EnosKernel.Ia32Code
import EnosKernel.Ia32Tables
import EnosKernel.MachineArith
import EnosKernel.Syscalls

/-! The program that boot writes to user space: the bytes that `install_user_program` emits, the
instructions that the processor reads back, and the text that the program prints. -/
namespace EnosKernel
namespace UserProgram

open ByteMemory Ia32

def userCodeAddr : UInt32 := Paging.userSpaceStart
def userMsgAddr : UInt32 := Paging.userSpaceStart+0x100

def storeByte (buf : List UInt8) (i : ℕ) (x : UInt8) : Except Panic (List UInt8) :=
  if i < buf.length then .ok (buf.set i x) else .error .indexOutOfBounds

def writeU32Le (buf : List UInt8) (offset : ℕ) (value : UInt32) : Except Panic (List UInt8) := do
  let buf ← storeByte buf offset (value &&& 0xFF).toUInt8
  let buf ← storeByte buf (offset+1) (value >>> 8 &&& 0xFF).toUInt8
  let buf ← storeByte buf (offset+2) (value >>> 16 &&& 0xFF).toUInt8
  storeByte buf (offset+3) (value >>> 24 &&& 0xFF).toUInt8

def writeI32Le (buf : List UInt8) (offset : ℕ) (value : BitVec 32) : Except Panic (List UInt8) :=
  writeU32Le buf offset (.ofBitVec value)

/-- The buffer and the cursor behind the instruction. -/
def emitMovImm32 (code : List UInt8) (cursor : ℕ) (opcode : UInt8) (imm : UInt32) : Except Panic (List UInt8 × ℕ) := do
  let code ← storeByte code cursor opcode
  let cursor := cursor+1
  let code ← writeU32Le code cursor imm
  .ok (code,cursor+4)

def msg : List UInt8 := RustStr.bytes "Ring 3 online via isolated user pages + sys_sleep.".toList

/-- The code buffer that `install_user_program` fills, and how much of it. -/
def userCode : Except Panic (List UInt8 × ℕ) := do
  let code := List.replicate 64 0
  let i := 0
  let (code,i) ← emitMovImm32 code i 0xB8 1
  let (code,i) ← emitMovImm32 code i 0xBB userMsgAddr
  let (code,i) ← emitMovImm32 code i 0xB9 (UInt32.ofNat msg.length)
  let code ← storeByte code i 0xCD
  let code ← storeByte code (i+1) 0x80
  let i := i+2
  let loopStart := i
  let (code,i) ← emitMovImm32 code i 0xB8 3
  let (code,i) ← emitMovImm32 code i 0xBB 20
  let code ← storeByte code i 0xCD
  let code ← storeByte code (i+1) 0x80
  let i := i+2
  let code ← storeByte code i 0xE9
  let nextIp := (userCodeAddr.toNat : ℤ)+i+5
  let targetIp := (userCodeAddr.toNat : ℤ)+loopStart
  let rel := BitVec.ofInt 32 (targetIp-nextIp)
  let code ← writeI32Le code (i+1) rel
  .ok (code,i+5)

/-- The memory with the program in it, and the entry point. -/
def installUserProgram (m : Memory) : Except Panic (Memory × UInt32) := do
  let m := fill m userCodeAddr (List.replicate 512 0)
  let m := fill m userMsgAddr (List.replicate 128 0)
  let m := fill m userMsgAddr msg
  let (code,i) ← userCode
  .ok (fill m userCodeAddr (code.take i),userCodeAddr)

theorem storeByte_append (done rest : List UInt8) (y x : UInt8) {i : ℕ} (hi : i = done.length) :
    storeByte (done++y::rest) i x = .ok (done++x::rest) := by
  subst hi
  rw [storeByte,if_pos (by simp)]
  simp

theorem byteOf_cut (x : UInt32) {n : UInt32} (hn : n < 32) {i : ℕ} (hi : n.toNat = 8*i) :
    (x >>> n &&& 0xFF).toUInt8 = byteOf x i := by
  apply UInt8.toNat_inj.mp
  have hcut : (x >>> n &&& 0xFF).toUInt8.toNat = _ := cut_toNat x hn 8 le_rfl
  rw [hcut,byteOf,UInt8.toNat_ofNat',hi,Nat.pow_mul]

theorem writeU32Le_append (done rest : List UInt8) (a b c d : UInt8) (value : UInt32) {offset : ℕ}
    (hoffset : offset = done.length) :
    writeU32Le (done++a::b::c::d::rest) offset value = .ok (done++(wordBytes value++rest)) := by
  have h0 : (value &&& 0xFF).toUInt8 = byteOf value 0 := by
    rw [← byteOf_cut value (n := 0) (by decide) rfl]
    simp
  have hsplit (x : UInt8) (front : List UInt8) (back : List UInt8) : front++x::back = (front++[x])++back := by simp
  rw [writeU32Le,storeByte_append done _ _ _ hoffset,MachineArith.ok_bind,hsplit,
    storeByte_append _ _ _ _ (by simp [hoffset]),
    MachineArith.ok_bind,hsplit,storeByte_append _ _ _ _ (by simp [hoffset]),MachineArith.ok_bind,hsplit,
    storeByte_append _ _ _ _ (by simp [hoffset]),h0,byteOf_cut value (n := 8) (i := 1) (by decide) rfl,
    byteOf_cut value (n := 16) (i := 2) (by decide) rfl,byteOf_cut value (n := 24) (i := 3) (by decide) rfl]
  simp [wordBytes]

theorem emitMovImm32_append (done rest : List UInt8) (o a b c d opcode : UInt8) (imm : UInt32) :
    emitMovImm32 (done++o::a::b::c::d::rest) done.length opcode imm =
      .ok (done++(opcode::wordBytes imm++rest),done.length+5) := by
  have hsplit : done++opcode::a::b::c::d::rest = (done++[opcode])++a::b::c::d::rest := by simp
  rw [emitMovImm32,storeByte_append done _ _ _ rfl,MachineArith.ok_bind,hsplit]
  dsimp only
  rw [writeU32Le_append _ _ _ _ _ _ _ (by simp),MachineArith.ok_bind]
  simp

theorem storeByte_error {buf : List UInt8} {i : ℕ} (h : buf.length ≤ i) (x : UInt8) :
    storeByte buf i x = .error .indexOutOfBounds := if_neg (not_lt.mpr h)

theorem writeU32Le_error (buf : List UInt8) (offset : ℕ) (value : UInt32) (h : buf.length < offset+4) :
    writeU32Le buf offset value = .error .indexOutOfBounds := by
  have hlast : ¬ offset+3 < buf.length := by omega
  have herror (f : List UInt8 → Except Panic (List UInt8)) :
      (Except.error .indexOutOfBounds >>= f) = .error .indexOutOfBounds := rfl
  by_cases h0 : offset < buf.length
  · by_cases h1 : offset+1 < buf.length
    · by_cases h2 : offset+2 < buf.length
      · simp [writeU32Le,storeByte,h0,h1,h2,hlast]
      · simp [writeU32Le,storeByte,h0,h1,h2,herror]
    · simp [writeU32Le,storeByte,h0,h1,herror]
  · simp [writeU32Le,storeByte,h0,herror]

/-- `emit_mov_imm32` writes the `mov` of that register and immediate: with room for five bytes they
are decoded back and all others stay as they are, and without it the kernel panics. -/
theorem emitMovImm32_spec (code : List UInt8) (cursor : ℕ) (dst : Reg) (imm : UInt32) :
    (cursor+5 ≤ code.length → ∃ after, emitMovImm32 code cursor (0xB8+dst.code) imm = .ok (after,cursor+5) ∧
      decode (after.drop cursor) = some (.mov dst imm) ∧ after.take cursor = code.take cursor ∧
      after.drop (cursor+5) = code.drop (cursor+5)) ∧
    (code.length < cursor+5 → emitMovImm32 code cursor (0xB8+dst.code) imm = .error .indexOutOfBounds) := by
  constructor
  · intro hroom
    obtain ⟨o,a,b,c,d,hfive⟩ : ∃ o a b c d, code.drop cursor = o::a::b::c::d::code.drop (cursor+5) := by
      rw [List.drop_eq_getElem_cons (show cursor < code.length by omega),
        List.drop_eq_getElem_cons (show cursor+1 < code.length by omega),
        List.drop_eq_getElem_cons (show cursor+1+1 < code.length by omega),
        List.drop_eq_getElem_cons (show cursor+1+1+1 < code.length by omega),
        List.drop_eq_getElem_cons (show cursor+1+1+1+1 < code.length by omega)]
      exact ⟨_,_,_,_,_,rfl⟩
    have hlength : (code.take cursor).length = cursor := by
      rw [List.length_take]
      omega
    have hsplit : code = code.take cursor++o::a::b::c::d::code.drop (cursor+5) := by rw [← hfive,List.take_append_drop]
    have hemit := emitMovImm32_append (code.take cursor) (code.drop (cursor+5)) o a b c d (0xB8+dst.code) imm
    rw [← hsplit,hlength] at hemit
    refine ⟨_,hemit,?_,?_,?_⟩
    · rw [List.drop_left' hlength]
      exact decode_bytes (.mov dst imm) _
    · rw [List.take_left' hlength]
    · rw [← List.drop_drop,List.drop_left' hlength]
      rfl
  · intro hroom
    by_cases hfirst : cursor < code.length
    · rw [emitMovImm32,storeByte,if_pos hfirst,MachineArith.ok_bind]
      dsimp only
      rw [writeU32Le_error _ _ _ (by rw [List.length_set]; omega)]
      rfl
    · rw [emitMovImm32,storeByte_error (not_lt.mp hfirst)]
      rfl

def program : List UserInstr :=
  [.mov .eax 1,.mov .ebx userMsgAddr,.mov .ecx 50,.int 0x80,.mov .eax 3,.mov .ebx 20,.int 0x80,.jmp 0xFFFFFFEF]

theorem userCode_eq : userCode = .ok (assemble program++List.replicate 30 0,34) := by
  rfl

def installed (m : Memory) : Memory :=
  fill (fill (fill (fill m userCodeAddr (List.replicate 512 0)) userMsgAddr (List.replicate 128 0)) userMsgAddr msg)
    userCodeAddr (assemble program)

theorem installUserProgram_eq (m : Memory) : installUserProgram m = .ok (installed m,userCodeAddr) := by
  rw [installUserProgram,userCode_eq]
  rfl

def programArea : Set UInt32 := span userCodeAddr 512

def instructionAt : ℕ → Option UserInstr
  | 0 => some (.mov .eax 1)
  | 5 => some (.mov .ebx userMsgAddr)
  | 10 => some (.mov .ecx 50)
  | 15 => some (.int 0x80)
  | 17 => some (.mov .eax 3)
  | 22 => some (.mov .ebx 20)
  | 27 => some (.int 0x80)
  | 29 => some (.jmp 0xFFFFFFEF)
  | _ => none

theorem instructionAt_le {k : ℕ} {i : UserInstr} (hi : instructionAt k = some i) : k+5 ≤ 34 := by
  unfold instructionAt at hi
  split at hi <;> first | omega | cases hi

theorem fetch_installed (m : Memory) {k : ℕ} {i : UserInstr} (hi : instructionAt k = some i) :
    fetch (installed m) (userCodeAddr+UInt32.ofNat k) = some i := by
  have hlength : (assemble program).length = 34 := rfl
  have hk := instructionAt_le hi
  rw [fetch,installed,bytesAt_fill _ _ (by rw [hlength]; exact hk) (by rw [hlength]; decide)]
  unfold instructionAt at hi
  split at hi <;> first | exact hi | cases hi

theorem codeAddr_toNat {k : ℕ} (hk : k < 512) : (userCodeAddr+UInt32.ofNat k).toNat = 0x400000+k := by
  have hvalue : (UInt32.ofNat k).toNat = k := by rw [UInt32.toNat_ofNat',Nat.mod_eq_of_lt (by omega)]
  have hstart : userCodeAddr.toNat = 0x400000 := rfl
  rw [toNat_add] <;> rw [hvalue,hstart]
  omega

theorem span_programArea {k n : ℕ} (h : k+n ≤ 512) (hk : k < 512) :
    span (userCodeAddr+UInt32.ofNat k) n ⊆ programArea := by
  rintro b ⟨hge,hlt⟩
  have hstart : userCodeAddr.toNat = 0x400000 := rfl
  rw [codeAddr_toNat hk] at hge hlt
  exact ⟨by omega,by omega⟩

theorem bytesAt_programArea {m m' : Memory} (hcode : AgreeOn programArea m m') {k n : ℕ} (h : k+n ≤ 512)
    (hk : k < 512) :
    bytesAt m' (userCodeAddr+UInt32.ofNat k) n = bytesAt m (userCodeAddr+UInt32.ofNat k) n :=
  (bytesAt_congr (by rw [codeAddr_toNat hk]; omega) (hcode.mono (span_programArea h hk))).symm

theorem fetch_program {m m' : Memory} (hcode : AgreeOn programArea (installed m) m') {k : ℕ} {i : UserInstr}
    (hi : instructionAt k = some i) : fetch m' (userCodeAddr+UInt32.ofNat k) = some i := by
  have hk := instructionAt_le hi
  rw [← fetch_installed m hi,fetch,fetch,bytesAt_programArea hcode (by omega) (by omega)]

theorem installed_outside (m : Memory) {b : UInt32} (hb : b ∉ programArea) : installed m b = m b := by
  have hend : userCodeAddr.toNat+512 = 0x400200 := rfl
  have hfill (m' : Memory) (a : UInt32) (bs : List UInt8) (hge : userCodeAddr.toNat ≤ a.toNat)
      (hle : a.toNat+bs.length ≤ 0x400200) : fill m' a bs b = m' b :=
    fill_outside (by omega) fun hin => hb ⟨hge.trans hin.1,by have := hin.2; omega⟩
  rw [installed,hfill _ _ _ (by decide) (by decide),hfill _ _ _ (by decide) (by decide),
    hfill _ _ _ (by decide) (by rw [List.length_replicate]; decide),
    hfill _ _ _ (by decide) (by rw [List.length_replicate]; decide)]

theorem message_installed (m : Memory) : bytesAt (installed m) userMsgAddr 50 = msg := by
  have hcode : AgreeOn (span userMsgAddr 50) (installed m) (fill (fill (fill m userCodeAddr (List.replicate 512 0))
      userMsgAddr (List.replicate 128 0)) userMsgAddr msg) := by
    rintro b ⟨hge,hlt⟩
    have hstart : userMsgAddr.toNat = 0x400100 := rfl
    have hcodeAddr : userCodeAddr.toNat = 0x400000 := rfl
    refine fill_outside (by decide) fun hin => ?_
    have hbelow : b.toNat < userCodeAddr.toNat+34 := hin.2
    omega
  have hmsg : bytesAt (fill (fill (fill m userCodeAddr (List.replicate 512 0)) userMsgAddr (List.replicate 128 0))
      userMsgAddr msg) (userMsgAddr+UInt32.ofNat 0) 50 = (msg.drop 0).take 50 :=
    bytesAt_fill _ _ (by decide) (by decide)
  rw [bytesAt_congr (by decide) hcode]
  exact hmsg

theorem print_message {m m' : Memory} (hcode : AgreeOn programArea (installed m) m') (k : Syscalls.Kernel)
    (arg3 arg4 arg5 esp : UInt32) :
    Syscalls.syscallDispatcher k m' 1 userMsgAddr 50 arg3 arg4 arg5 esp =
      (0,(k.println "[Ring 3] Ring 3 online via isolated user pages + sys_sleep.".toList).serialPrintln
        "[Syscall SYS_PRINT] Ring 3 online via isolated user pages + sys_sleep.".toList) := by
  have hbytes : bytesAt m' userMsgAddr 50 = msg :=
    (bytesAt_programArea (k := 0x100) hcode (by decide) (by decide)).trans (message_installed m)
  have hcheck : Paging.validateUserBuffer userMsgAddr 50 = .ok (userMsgAddr,50) := by decide
  have htext : RustStr.fromUtf8 (bytesAt m' userMsgAddr (50 : UInt32).toNat) =
      some "Ring 3 online via isolated user pages + sys_sleep.".toList := by
    rw [RustStr.fromUtf8_eq_some]
    exact hbytes.symm
  rw [Syscalls.syscallDispatcher,Syscalls.sysPrint,hcheck]
  simp only [htext]
  rfl

end UserProgram
end EnosKernel
