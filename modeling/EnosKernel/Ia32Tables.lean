import EnosKernel.Ia32

/-! The tables of a 32-bit x86 processor as it reads them: segment and gate descriptors, what the
privilege checks let through, the way of an interrupt to its handler, and the port permissions of
the task state segment. -/
namespace EnosKernel
namespace Ia32

open ByteMemory

def bytes16 (x : UInt16) : List UInt8 := [x.toUInt8,(x >>> 8).toUInt8]

theorem bytes16_toNat (x : UInt16) : x.toUInt8.toNat+256*(x >>> 8).toUInt8.toNat = x.toNat := by
  have hx := x.toNat_lt
  simp only [UInt16.toNat_toUInt8,UInt16.toNat_shiftRight,UInt16.reduceToNat,Nat.shiftRight_eq_div_pow,Nat.reduceMod,
    Nat.reducePow]
  omega

theorem low16_toNat (x : UInt32) : (x &&& 0xFFFF).toUInt16.toNat = x.toNat%2^16 := by
  simp only [UInt32.toNat_toUInt16,UInt32.toNat_and,UInt32.reduceToNat]
  rw [show (65535 : ℕ) = 2^16-1 from rfl,Nat.and_two_pow_sub_one_eq_mod]
  omega

theorem cut_toNat (x : UInt32) {n : UInt32} (hn : n < 32) (bits : ℕ) (hbits : bits ≤ 8) :
    (x >>> n &&& UInt32.ofNat (2^bits-1)).toUInt8.toNat = x.toNat/2^n.toNat%2^bits := by
  have hpow : 2^bits ≤ 2^8 := Nat.pow_le_pow_right (by omega) hbits
  have hn' : n.toNat < 32 := hn
  simp only [UInt32.toNat_toUInt8,UInt32.toNat_and,UInt32.toNat_shiftRight,UInt32.toNat_ofNat',
    Nat.shiftRight_eq_div_pow]
  rw [Nat.mod_eq_of_lt (a := n.toNat) hn',Nat.mod_eq_of_lt (a := 2^bits-1) (by omega),Nat.and_two_pow_sub_one_eq_mod,
    Nat.mod_eq_of_lt]
  exact (Nat.mod_lt _ (by positivity)).trans_le hpow

/-- A table that a pseudo-descriptor points to, with its limit. -/
structure Table where
  limit : UInt16
  bytes : List UInt8

/-- The eight bytes of a descriptor that lies within the limit. -/
def Table.descriptor (t : Table) (index : ℕ) : Option (List UInt8) :=
  if 8*index+7 ≤ t.limit.toNat then some ((t.bytes.drop (8*index)).take 8) else none

theorem take_drop_flatMap {α : Type*} {f : α → List UInt8} {n : ℕ} (hf : ∀ x, (f x).length = n) :
    ∀ (xs : List α) {i : ℕ} {x : α}, xs[i]? = some x → ((xs.flatMap f).drop (n*i)).take n = f x
  | y::ys, 0, x, h => by
    obtain rfl := Option.some.inj h
    rw [List.flatMap_cons,Nat.mul_zero,List.drop_zero,← hf y,List.take_left]
  | y::ys, i+1, x, h => by
    have hdrop : n*(i+1) = (f y).length+n*i := by rw [hf,Nat.mul_succ,Nat.add_comm]
    rw [List.flatMap_cons,hdrop,List.drop_length_add_append]
    exact take_drop_flatMap hf ys (i := i) h

theorem Table.descriptor_flatMap {α : Type*} {f : α → List UInt8} (hf : ∀ x, (f x).length = 8) {xs : List α}
    {limit : UInt16} (hlimit : limit.toNat+1 = 8*xs.length) (i : ℕ) :
    (Table.mk limit (xs.flatMap f)).descriptor i = xs[i]?.map f := by
  simp only [descriptor]
  by_cases hi : i < xs.length
  · have hget := List.getElem?_eq_getElem hi
    rw [hget,if_pos (by omega),take_drop_flatMap hf xs hget,Option.map_some]
  · rw [if_neg (by omega),List.getElem?_eq_none (not_lt.mp hi),Option.map_none]

structure Segment where
  base : UInt32
  limit : UInt32
  access : UInt8
  flags : UInt8
  deriving DecidableEq, Repr

def Segment.ofBytes : List UInt8 → Option Segment
  | [b0,b1,b2,b3,b4,b5,b6,b7] =>
    some ⟨ByteMemory.ofBytes b2 b3 b4 b7,ByteMemory.ofBytes b0 b1 (b6 &&& 0x0F) 0,b5,b6 &&& 0xF0⟩
  | _ => none

namespace Segment

def Present (s : Segment) : Prop := s.access &&& 0x80 ≠ 0
def dpl (s : Segment) : UInt8 := s.access >>> 5 &&& 3
def CodeOrData (s : Segment) : Prop := s.access &&& 0x10 ≠ 0
def Code (s : Segment) : Prop := s.access &&& 0x18 = 0x18
def WritableData (s : Segment) : Prop := s.access &&& 0x1A = 0x12
def Readable (s : Segment) : Prop := s.access &&& 0x1A ≠ 0x18
def Conforming (s : Segment) : Prop := s.access &&& 0x1C = 0x1C
def AvailableTss (s : Segment) : Prop := s.access &&& 0x1F = 0x09

instance (s : Segment) : Decidable s.Present := inferInstanceAs (Decidable (_ ≠ _))
instance (s : Segment) : Decidable s.CodeOrData := inferInstanceAs (Decidable (_ ≠ _))
instance (s : Segment) : Decidable s.Code := inferInstanceAs (Decidable (_ = _))
instance (s : Segment) : Decidable s.WritableData := inferInstanceAs (Decidable (_ = _))
instance (s : Segment) : Decidable s.Readable := inferInstanceAs (Decidable (_ ≠ _))
instance (s : Segment) : Decidable s.Conforming := inferInstanceAs (Decidable (_ = _))
instance (s : Segment) : Decidable s.AvailableTss := inferInstanceAs (Decidable (_ = _))

/-- The last offset within the segment: the limit counts bytes or pages. -/
def last (s : Segment) : ℕ := if s.flags &&& 0x80 = 0 then s.limit.toNat else 4096*s.limit.toNat+4095

end Segment

def rpl (selector : UInt16) : UInt8 := (selector &&& 3).toUInt8

/-- The descriptor that a selector names; a selector of a local table names none here. -/
def segmentAt (gdt : Table) (selector : UInt16) : Option Segment :=
  if selector &&& 4 = 0 then (gdt.descriptor (selector >>> 3).toNat).bind Segment.ofBytes else none

/-- What a load of `ds`, `es`, `fs` or `gs` checks; the null selector always loads. -/
def LoadsData (gdt : Table) (cpl : UInt8) (selector : UInt16) : Prop :=
  selector >>> 2 = 0 ∨ ∃ s ∈ segmentAt gdt selector, s.CodeOrData ∧ s.Readable ∧ s.Present ∧
    (s.Conforming ∨ cpl ≤ s.dpl ∧ rpl selector ≤ s.dpl)

/-- What a load of `ss` checks. -/
def LoadsStack (gdt : Table) (cpl : UInt8) (selector : UInt16) : Prop :=
  selector >>> 2 ≠ 0 ∧ ∃ s ∈ segmentAt gdt selector, s.WritableData ∧ s.Present ∧ s.dpl = cpl ∧ rpl selector = cpl

/-- What a return to the level in the selector checks of the code segment. -/
def ReturnsTo (gdt : Table) (cpl : UInt8) (selector : UInt16) : Prop :=
  selector >>> 2 ≠ 0 ∧ cpl ≤ rpl selector ∧ ∃ s ∈ segmentAt gdt selector, s.Code ∧ s.Present ∧
    if s.Conforming then s.dpl ≤ rpl selector else s.dpl = rpl selector

structure GateDescriptor where
  offset : UInt32
  selector : UInt16
  attributes : UInt8
  deriving DecidableEq, Repr

def GateDescriptor.ofBytes : List UInt8 → Option GateDescriptor
  | [b0,b1,b2,b3,_,b5,b6,b7] =>
    some ⟨ByteMemory.ofBytes b0 b1 b6 b7,UInt16.ofNat (b2.toNat+256*b3.toNat),b5⟩
  | _ => none

namespace GateDescriptor

def Present (g : GateDescriptor) : Prop := g.attributes &&& 0x80 ≠ 0
def dpl (g : GateDescriptor) : UInt8 := g.attributes >>> 5 &&& 3
/-- A 32-bit interrupt gate; the other kinds are not used. -/
def Interrupt (g : GateDescriptor) : Prop := g.attributes &&& 0x1F = 0x0E

instance (g : GateDescriptor) : Decidable g.Present := inferInstanceAs (Decidable (_ ≠ _))
instance (g : GateDescriptor) : Decidable g.Interrupt := inferInstanceAs (Decidable (_ = _))

end GateDescriptor

/-- Where an interrupt comes from: the processor itself, a device, or an `int` instruction. -/
inductive Source
  | exception
  | external
  | software
  deriving DecidableEq, Repr

/-- The exceptions for which the processor pushes an error code. -/
def pushesCode (vector : ℕ) : Bool := vector ∈ [8,10,11,12,13,14,17,21,29,30]

def generalProtection : ℕ := 13
def segmentNotPresent : ℕ := 11
def doubleFault : ℕ := 8

def gateCode (vector : ℕ) (source : Source) : UInt32 :=
  UInt32.ofNat (8*vector+2)+if source = .software then 0 else 1

/-- The gate for a vector, or the exception that the attempt raises, with its code. -/
def gateFor (idt : Table) (cpl : UInt8) (vector : ℕ) (source : Source) : Except (ℕ × UInt32) GateDescriptor :=
  match (idt.descriptor vector).bind GateDescriptor.ofBytes with
  | none => .error (generalProtection,gateCode vector source)
  | some g =>
    if ¬ g.Interrupt then .error (generalProtection,gateCode vector source)
    else if source = .software ∧ g.dpl < cpl then .error (generalProtection,gateCode vector source)
    else if ¬ g.Present then .error (segmentNotPresent,gateCode vector source)
    else .ok g

/-- Where an interrupt ends: in a handler, with the error code on its stack, or nowhere. -/
inductive Delivery
  | entered (vector : ℕ) (gate : Gate) (code : Option UInt32)
  | shutdown
  deriving DecidableEq, Repr

def GateDescriptor.gate (g : GateDescriptor) : Gate := ⟨g.selector.toUInt32,g.offset⟩

def deliverDoubleFault (idt : Table) (cpl : UInt8) : Delivery :=
  match gateFor idt cpl doubleFault .exception with
  | .ok g => .entered doubleFault g.gate (some 0)
  | .error _ => .shutdown

/-- The exceptions in whose delivery a further one is a double fault. -/
def contributory (vector : ℕ) : Bool := vector ∈ [0,10,11,12,13,14]

/-- The way of an interrupt through the table, with the exceptions that it may raise on the way;
`code` is the error code of an exception that has one. -/
def deliver (idt : Table) (cpl : UInt8) (vector : ℕ) (source : Source) (code : UInt32) : Delivery :=
  match gateFor idt cpl vector source with
  | .ok g => .entered vector g.gate (if source = .exception ∧ pushesCode vector then some code else none)
  | .error (fault,faultCode) =>
    if source = .exception ∧ vector = doubleFault then .shutdown
    else if source = .exception ∧ contributory vector then deliverDoubleFault idt cpl
    else
      match gateFor idt cpl fault .exception with
      | .ok g => .entered fault g.gate (some faultCode)
      | .error _ => deliverDoubleFault idt cpl

/-- The permission bit of a port in a task state segment, at the place it gives for its map. -/
def portBit (tss : List UInt8) (limit : ℕ) (port : ℕ) : Option Bool :=
  let place := (tss.getD 102 0).toNat+256*(tss.getD 103 0).toNat+port/8
  if place+1 ≤ limit then some ((tss.getD place 0).toNat.testBit (port%8)) else none

/-- Which ports a program may use: all with the I/O privilege of the flags, else those whose
bit in the map is clear. -/
def MayUsePort (tss : List UInt8) (limit : ℕ) (cpl : UInt8) (eflags : UInt32) (port : ℕ) : Prop :=
  cpl.toUInt32 ≤ eflags >>> 12 &&& 3 ∨ portBit tss limit port = some false

/-- The kernel stack that the processor takes from a task state segment. -/
def kernelStack (tss : List UInt8) : Tss where
  esp0 := ByteMemory.ofBytes (tss.getD 4 0) (tss.getD 5 0) (tss.getD 6 0) (tss.getD 7 0)
  ss0 := ByteMemory.ofBytes (tss.getD 8 0) (tss.getD 9 0) 0 0

end Ia32
end EnosKernel
