import EnosKernel.BitFields

/-! Counter 0 of an 8254 interval timer: the control word that chooses a mode and how counts are
written, and the bytes of a count. -/
namespace EnosKernel
namespace Pit8254

structure Counter where
  mode : UInt8
  bcd : Bool
  access : UInt8
  /-- The low byte of a count whose high byte is still to come. -/
  low : Option UInt8
  count : Option UInt16
  deriving DecidableEq, Repr

namespace Counter

/-- A control word for this counter starts over; one for another counter, and a latch command, do
nothing to it. -/
def control (c : Counter) (v : UInt8) : Counter :=
  if v >>> 6 ≠ 0 ∨ v >>> 4 &&& 3 = 0 then c
  else ⟨v >>> 1 &&& 7,v &&& 1 ≠ 0,v >>> 4 &&& 3,none,none⟩

def data (c : Counter) (v : UInt8) : Counter :=
  if c.access = 1 then { c with count := some v.toUInt16 }
  else if c.access = 2 then { c with count := some (v.toUInt16 <<< 8) }
  else match c.low with
    | none => { c with low := some v }
    | some low => { c with low := none, count := some (low.toUInt16 ||| v.toUInt16 <<< 8) }

def outb (c : Counter) (port : UInt16) (v : UInt8) : Counter :=
  if port = 0x43 then c.control v else if port = 0x40 then c.data v else c

/-- The input cycles from one interrupt to the next; a count of zero stands for the largest one. -/
def period (c : Counter) : Option ℕ := c.count.map fun n => if n = 0 then 65536 else n.toNat

end Counter

theorem bytes_count (n : UInt16) : (n &&& 0x00FF).toUInt8.toUInt16 ||| (n >>> 8).toUInt8.toUInt16 <<< 8 = n := by
  have hbound := n.toNat_lt
  apply UInt16.toNat_inj.mp
  have hlow : (n &&& 0x00FF).toUInt8.toUInt16.toNat = n.toNat%256 := by
    have hmask : n.toNat &&& 255 = n.toNat%2^8 := Nat.and_two_pow_sub_one_eq_mod n.toNat 8
    simp only [UInt8.toNat_toUInt16,UInt16.toNat_toUInt8,UInt16.toNat_and,UInt16.reduceToNat,hmask]
    omega
  have hhigh : ((n >>> 8).toUInt8.toUInt16 <<< 8).toNat = 2^8*(n.toNat/256) := by
    simp only [UInt16.toNat_shiftLeft,UInt8.toNat_toUInt16,UInt16.toNat_toUInt8,UInt16.toNat_shiftRight,
      UInt16.reduceToNat,Nat.shiftLeft_eq,Nat.shiftRight_eq_div_pow,Nat.reduceMod,Nat.reducePow]
    omega
  rw [UInt16.toNat_or,hlow,hhigh,Nat.or_comm,BitFields.or_eq_add (by omega)]
  omega

end Pit8254
end EnosKernel
