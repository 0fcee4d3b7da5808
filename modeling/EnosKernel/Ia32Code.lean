import EnosKernel.Ia32

/-! Machine code of a 32-bit x86 processor, as far as a small program needs it: instructions as
bytes, the bytes read back, and what an instruction does to the registers. -/
namespace EnosKernel
namespace Ia32

open ByteMemory

/-- Instructions that touch no data in memory. -/
inductive UserInstr
  | mov (dst : Reg) (imm : UInt32)
  | int (vector : UInt8)
  | jmp (rel : UInt32)
  deriving DecidableEq, Repr

def Reg.code : Reg → UInt8
  | .eax => 0 | .ecx => 1 | .edx => 2 | .ebx => 3 | .esp => 4 | .ebp => 5 | .esi => 6 | .edi => 7

def Reg.ofCode (n : UInt8) : Option Reg := [.eax,.ecx,.edx,.ebx,.esp,.ebp,.esi,.edi][n.toNat]?

def UserInstr.bytes : UserInstr → List UInt8
  | .mov dst imm => (0xB8+dst.code)::wordBytes imm
  | .int vector => [0xCD,vector]
  | .jmp rel => 0xE9::wordBytes rel

def decode : List UInt8 → Option UserInstr
  | 0xCD::vector::_ => some (.int vector)
  | 0xE9::a::b::c::d::_ => some (.jmp (ofBytes a b c d))
  | opcode::a::b::c::d::_ => if 0xB8 ≤ opcode then (Reg.ofCode (opcode-0xB8)).map (.mov · (ofBytes a b c d)) else none
  | _ => none

/-- What is assembled is read back, whatever follows. -/
theorem decode_bytes (i : UserInstr) (rest : List UInt8) : decode (i.bytes++rest) = some i := by
  cases i with
  | mov dst imm => cases dst <;> simp [UserInstr.bytes,wordBytes,Reg.code,decode,Reg.ofCode,ofBytes_byteOf]
  | int vector => rfl
  | jmp rel => simp [UserInstr.bytes,wordBytes,decode,ofBytes_byteOf]

theorem UserInstr.bytes_length_le (i : UserInstr) : i.bytes.length ≤ 5 := by cases i <;> simp [bytes,wordBytes]

/-- The instruction at the instruction pointer; none takes more than five bytes. -/
def fetch (m : Memory) (eip : UInt32) : Option UserInstr := decode (bytesAt m eip 5)

/-- The context behind an instruction; an `int` has the address of the next one pushed. -/
def UserInstr.after (i : UserInstr) (x : Context) : Context :=
  let next := x.eip+UInt32.ofNat i.bytes.length
  match i with
  | .mov dst imm => { x with regs := Function.update x.regs dst imm, eip := next }
  | .int _ => { x with eip := next }
  | .jmp rel => { x with eip := next+rel }

theorem UserInstr.after_cs (i : UserInstr) (x : Context) : (i.after x).cs = x.cs := by cases i <;> rfl

def assemble (is : List UserInstr) : List UInt8 := is.flatMap UserInstr.bytes

/-- Memory with a row of bytes put at an address. -/
def fill (m : Memory) (a : UInt32) (bs : List UInt8) : Memory := fun b => bs[(b-a).toNat]?.getD (m b)

theorem fill_of_lt {m : Memory} {a b : UInt32} {bs : List UInt8} (h : (b-a).toNat < bs.length) :
    fill m a bs b = bs[(b-a).toNat] := by
  rw [fill,List.getElem?_eq_getElem h,Option.getD_some]

theorem fill_outside {m : Memory} {a b : UInt32} {bs : List UInt8} (ha : a.toNat+bs.length ≤ 2^32)
    (hb : b ∉ span a bs.length) : fill m a bs b = m b := by
  have hbound := b.toNat_lt
  have hout : ¬(a.toNat ≤ b.toNat ∧ b.toNat < a.toNat+bs.length) := hb
  have hfar : bs.length ≤ (b-a).toNat := by
    rw [UInt32.toNat_sub]
    omega
  rw [fill,List.getElem?_eq_none hfar,Option.getD_none]

theorem bytesAt_fill (m : Memory) (a : UInt32) {bs : List UInt8} {k n : ℕ} (h : k+n ≤ bs.length)
    (hsize : bs.length < 2^32) :
    bytesAt (fill m a bs) (a+UInt32.ofNat k) n = (bs.drop k).take n := by
  apply List.ext_getElem
  · simp only [bytesAt,List.length_map,List.length_range,List.length_take,List.length_drop]
    omega
  · intro i hi _
    have hlt : i < n := by simpa [bytesAt] using hi
    have hoffset : (a+UInt32.ofNat k+UInt32.ofNat i-a).toNat = k+i := by
      rw [UInt32.add_assoc,UInt32.add_comm,UInt32.add_sub_cancel,← UInt32.ofNat_add,UInt32.toNat_ofNat',
        Nat.mod_eq_of_lt (by omega)]
    simp only [bytesAt,List.getElem_map,List.getElem_range,List.getElem_take,List.getElem_drop]
    rw [fill_of_lt (by omega)]
    simp only [hoffset]

end Ia32
end EnosKernel
