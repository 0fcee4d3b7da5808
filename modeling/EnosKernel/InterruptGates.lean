import EnosKernel.KernelTables

/-! The interrupt gates that boot installs, and the handler at which every interrupt arrives. -/
namespace EnosKernel
namespace Tables

open Ia32

structure IdtEntry where
  offsetLow : UInt16
  selector : UInt16
  zero : UInt8
  typeAttr : UInt8
  offsetHigh : UInt16
  deriving DecidableEq, Repr

namespace IdtEntry

def missing : IdtEntry := ⟨0,0,0,0,0⟩

/-- `cs` is the code segment that the processor is in. -/
def setHandlerRaw (cs : UInt16) (pointer : UInt32) (_entry : IdtEntry) : IdtEntry where
  offsetLow := pointer.toUInt16
  selector := cs
  zero := 0
  typeAttr := 0x8E
  offsetHigh := (pointer >>> 16).toUInt16

def setHandlerUser (cs : UInt16) (pointer : UInt32) (entry : IdtEntry) : IdtEntry :=
  { entry.setHandlerRaw cs pointer with typeAttr := 0xEE }

def bytes (e : IdtEntry) : List UInt8 :=
  bytes16 e.offsetLow++bytes16 e.selector++[e.zero,e.typeAttr]++bytes16 e.offsetHigh

theorem bytes_length (e : IdtEntry) : e.bytes.length = 8 := rfl

end IdtEntry

abbrev InterruptDescriptorTable := List IdtEntry

namespace InterruptDescriptorTable

def new : InterruptDescriptorTable := List.replicate 256 .missing

/-- `set_handler`, `set_handler_ptr` and `set_handler_with_code` at an index of the table. -/
def setHandler (idt : InterruptDescriptorTable) (cs : UInt16) (index : ℕ) (pointer : UInt32) :
    InterruptDescriptorTable :=
  idt.modify index (.setHandlerRaw cs pointer)

def setHandlerUser (idt : InterruptDescriptorTable) (cs : UInt16) (index : ℕ) (pointer : UInt32) :
    InterruptDescriptorTable :=
  idt.modify index (.setHandlerUser cs pointer)

end InterruptDescriptorTable

inductive Handler
  | defaultException
  | defaultExceptionWithCode
  | breakpoint
  | timerInterruptWrapper
  | keyboardInterrupt
  | pageFaultWrapper
  | syscallWrapper
  | gpf
  | doubleFault
  deriving DecidableEq, Repr

def exceptionHasErrorCode (vector : ℕ) : Bool := vector ∈ [8,10,11,12,13,14,17,21,29,30]

def initIdt (cs : UInt16) (address : Handler → UInt32) : InterruptDescriptorTable :=
  let idt := (List.range 32).foldl (fun idt vector =>
    if exceptionHasErrorCode vector then idt.setHandler cs vector (address .defaultExceptionWithCode)
    else idt.setHandler cs vector (address .defaultException)) InterruptDescriptorTable.new
  let idt := idt.setHandler cs 3 (address .breakpoint)
  let idt := idt.setHandler cs 32 (address .timerInterruptWrapper)
  let idt := idt.setHandler cs 33 (address .keyboardInterrupt)
  let idt := idt.setHandler cs 14 (address .pageFaultWrapper)
  let idt := idt.setHandlerUser cs 0x80 (address .syscallWrapper)
  let idt := idt.setHandler cs 13 (address .gpf)
  idt.setHandler cs 8 (address .doubleFault)

def idt (cs : UInt16) (address : Handler → UInt32) : Table := ⟨256*8-1,(initIdt cs address).flatMap IdtEntry.bytes⟩

/-- The handler that is left in a gate, the last one set. -/
def handlerOf (vector : ℕ) : Option Handler :=
  if vector = 8 then some .doubleFault
  else if vector = 13 then some .gpf
  else if vector = 0x80 then some .syscallWrapper
  else if vector = 14 then some .pageFaultWrapper
  else if vector = 33 then some .keyboardInterrupt
  else if vector = 32 then some .timerInterruptWrapper
  else if vector = 3 then some .breakpoint
  else if vector < 32 then some (if exceptionHasErrorCode vector then .defaultExceptionWithCode else .defaultException)
  else none

def entryOf (cs : UInt16) (address : Handler → UInt32) : Option Handler → IdtEntry
  | none => .missing
  | some .syscallWrapper => .setHandlerUser cs (address .syscallWrapper) .missing
  | some h => .setHandlerRaw cs (address h) .missing

theorem getElem?_foldl_modify {α : Type*} (f : ℕ → α → α) (n : ℕ) (xs : List α) (v : ℕ) :
    ((List.range n).foldl (fun xs i => xs.modify i (f i)) xs)[v]? = xs[v]?.map fun x => if v < n then f v x else x := by
  induction n with
  | zero => simp
  | succ n ih =>
    rw [List.range_succ,List.foldl_append,List.foldl_cons,List.foldl_nil,List.getElem?_modify,ih]
    cases xs[v]? with
    | none => rfl
    | some x =>
      rcases lt_trichotomy v n with hlt | rfl | hgt
      · simp [hlt,hlt.ne',Nat.lt_succ_of_lt hlt]
      · simp
      · simp [hgt.ne,not_lt.mpr hgt.le,show ¬ v < n+1 by omega]

theorem length_foldl_modify {α : Type*} (f : ℕ → α → α) (is : List ℕ) (xs : List α) :
    (is.foldl (fun xs i => xs.modify i (f i)) xs).length = xs.length := by
  induction is generalizing xs with
  | nil => rfl
  | cons i is ih => rw [List.foldl_cons,ih,List.length_modify]

theorem exceptions_loop (cs : UInt16) (address : Handler → UInt32) :
    (fun (idt : InterruptDescriptorTable) vector =>
      if exceptionHasErrorCode vector then idt.setHandler cs vector (address .defaultExceptionWithCode)
      else idt.setHandler cs vector (address .defaultException)) =
    fun idt vector => idt.modify vector (.setHandlerRaw cs (address (if exceptionHasErrorCode vector then
      .defaultExceptionWithCode else .defaultException))) := by
  funext idt vector
  split_ifs <;> rfl

theorem initIdt_entry (cs : UInt16) (address : Handler → UInt32) {vector : ℕ} (hvector : vector < 256) :
    (initIdt cs address)[vector]? = some (entryOf cs address (handlerOf vector)) := by
  have hmissing : InterruptDescriptorTable.new[vector]? = some .missing := by
    rw [InterruptDescriptorTable.new,List.getElem?_replicate,if_pos hvector]
  simp only [initIdt,InterruptDescriptorTable.setHandlerUser,exceptions_loop]
  simp only [InterruptDescriptorTable.setHandler,List.getElem?_modify,getElem?_foldl_modify,hmissing,Option.map_some,
    Option.map_eq_map]
  congr 1
  by_cases hset : vector ∈ [8,13,0x80,14,33,32,3]
  · simp only [List.mem_cons,List.not_mem_nil,or_false] at hset
    rcases hset with rfl | rfl | rfl | rfl | rfl | rfl | rfl <;> rfl
  · simp only [List.mem_cons,List.not_mem_nil,or_false,not_or] at hset
    obtain ⟨h8,h13,h80,h14,h33,h32,h3⟩ := hset
    rw [handlerOf,if_neg h8,if_neg h13,if_neg h80,if_neg h14,if_neg h33,if_neg h32,if_neg h3,if_neg (Ne.symm h8),
      if_neg (Ne.symm h13),if_neg (Ne.symm h80),if_neg (Ne.symm h14),if_neg (Ne.symm h33),if_neg (Ne.symm h32),
      if_neg (Ne.symm h3)]
    by_cases hexception : vector < 32
    · rw [if_pos hexception,if_pos hexception]
      split_ifs <;> rfl
    · rw [if_neg hexception,if_neg hexception]
      rfl

theorem offset_recombines (pointer : UInt32) : ByteMemory.ofBytes pointer.toUInt16.toUInt8
    (pointer.toUInt16 >>> 8).toUInt8 (pointer >>> 16).toUInt16.toUInt8
    ((pointer >>> 16).toUInt16 >>> 8).toUInt8 = pointer := by
  have hpointer := pointer.toNat_lt
  have hlow := bytes16_toNat pointer.toUInt16
  have hhigh := bytes16_toNat (pointer >>> 16).toUInt16
  simp only [UInt32.toNat_toUInt16,UInt32.toNat_shiftRight,UInt32.reduceToNat,Nat.shiftRight_eq_div_pow,Nat.reduceMod,
    Nat.reducePow] at hlow hhigh
  apply UInt32.toNat_inj.mp
  rw [ByteMemory.ofBytes,UInt32.toNat_ofNat']
  omega

theorem gate_setHandlerRaw (cs : UInt16) (pointer : UInt32) (e : IdtEntry) :
    GateDescriptor.ofBytes (e.setHandlerRaw cs pointer).bytes = some ⟨pointer,cs,0x8E⟩ := by
  simp only [IdtEntry.setHandlerRaw,IdtEntry.bytes,bytes16,List.cons_append,List.nil_append,GateDescriptor.ofBytes,
    offset_recombines,bytes16_toNat,UInt16.ofNat_toNat]

theorem gate_setHandlerUser (cs : UInt16) (pointer : UInt32) (e : IdtEntry) :
    GateDescriptor.ofBytes (e.setHandlerUser cs pointer).bytes = some ⟨pointer,cs,0xEE⟩ := by
  simp only [IdtEntry.setHandlerUser,IdtEntry.setHandlerRaw,IdtEntry.bytes,bytes16,List.cons_append,List.nil_append,
    GateDescriptor.ofBytes,offset_recombines,bytes16_toNat,UInt16.ofNat_toNat]

def attributesOf (h : Handler) : UInt8 := if h = .syscallWrapper then 0xEE else 0x8E

theorem gate_entryOf (cs : UInt16) (address : Handler → UInt32) (h : Handler) :
    GateDescriptor.ofBytes (entryOf cs address (some h)).bytes = some ⟨address h,cs,attributesOf h⟩ := by
  by_cases hsyscall : h = .syscallWrapper
  · subst hsyscall
    exact gate_setHandlerUser cs _ .missing
  · rw [attributesOf,if_neg hsyscall]
    cases h <;> first | exact absurd rfl hsyscall | exact gate_setHandlerRaw cs _ .missing

theorem initIdt_length (cs : UInt16) (address : Handler → UInt32) : (initIdt cs address).length = 256 := by
  simp only [initIdt,InterruptDescriptorTable.setHandlerUser,exceptions_loop]
  simp only [InterruptDescriptorTable.setHandler,List.length_modify,length_foldl_modify]
  exact List.length_replicate

theorem descriptor_idt (cs : UInt16) (address : Handler → UInt32) (vector : ℕ) :
    ((idt cs address).descriptor vector).bind GateDescriptor.ofBytes = if vector < 256 then
      GateDescriptor.ofBytes (entryOf cs address (handlerOf vector)).bytes else none := by
  have hlength := initIdt_length cs address
  rw [idt,Table.descriptor_flatMap IdtEntry.bytes_length (by rw [hlength]; rfl)]
  split_ifs with hvector
  · rw [initIdt_entry cs address hvector]
    rfl
  · rw [List.getElem?_eq_none (by omega)]
    rfl

theorem handlerOf_large {vector : ℕ} (h : 256 ≤ vector) : handlerOf vector = none := by
  rw [handlerOf,if_neg (by omega),if_neg (by omega),if_neg (by omega),if_neg (by omega),if_neg (by omega),
    if_neg (by omega),if_neg (by omega),if_neg (by omega)]

theorem handlerOf_exception : ∀ vector < 32, handlerOf vector ≠ none := by decide

theorem handlerOf_lt {vector : ℕ} {h : Handler} (hhandler : handlerOf vector = some h) : vector < 256 := by
  by_contra hlarge
  rw [handlerOf_large (not_lt.mp hlarge)] at hhandler
  cases hhandler

theorem gateFor_idt (cs : UInt16) (address : Handler → UInt32) {cpl : UInt8} (hcpl : cpl ≤ 3) (vector : ℕ)
    (source : Source) :
    gateFor (idt cs address) cpl vector source = match handlerOf vector with
      | none => .error (generalProtection,gateCode vector source)
      | some h =>
        if source = .software ∧ h ≠ .syscallWrapper ∧ cpl ≠ 0 then
          .error (generalProtection,gateCode vector source)
        else .ok ⟨address h,cs,attributesOf h⟩ := by
  rw [gateFor,descriptor_idt]
  cases hhandler : handlerOf vector with
  | none =>
    have hmissing : GateDescriptor.ofBytes (entryOf cs address none).bytes = some ⟨0,0,0⟩ := by
      change GateDescriptor.ofBytes IdtEntry.missing.bytes = _
      decide
    rw [hmissing]
    split_ifs
    · exact if_pos (by decide)
    · rfl
  | some h =>
    have hvector := handlerOf_lt hhandler
    let g : GateDescriptor := ⟨address h,cs,attributesOf h⟩
    have hkind : g.Interrupt ∧ g.Present := by
      change attributesOf h &&& 0x1F = 0x0E ∧ attributesOf h &&& 0x80 ≠ 0
      unfold attributesOf
      split_ifs <;> decide
    have hdpl : g.dpl < cpl ↔ h ≠ .syscallWrapper ∧ cpl ≠ 0 := by
      change attributesOf h >>> 5 &&& 3 < cpl ↔ _
      unfold attributesOf
      split_ifs with hsyscall
      · simp only [hsyscall,ne_eq,not_true_eq_false,false_and,iff_false]
        exact UInt8.not_lt.mpr hcpl
      · simp only [hsyscall,ne_eq,not_false_eq_true,true_and]
        exact UInt8.pos_iff_ne_zero
    rw [if_pos hvector,gate_entryOf]
    change (if ¬ g.Interrupt then _ else
      if source = .software ∧ g.dpl < cpl then _ else
      if ¬ g.Present then _ else Except.ok g) = _
    rw [if_neg (not_not.mpr hkind.1),if_neg (not_not.mpr hkind.2)]
    exact if_congr (and_congr_right fun _ => hdpl) rfl rfl

def refused (cs : UInt16) (address : Handler → UInt32) (vector : ℕ) (source : Source) : Delivery :=
  .entered generalProtection ⟨cs.toUInt32,address .gpf⟩ (some (gateCode vector source))

theorem deliver_idt (cs : UInt16) (address : Handler → UInt32) {cpl : UInt8} (hcpl : cpl ≤ 3) (vector : ℕ)
    (source : Source) (code : UInt32) : deliver (idt cs address) cpl vector source code = match handlerOf vector with
      | none => refused cs address vector source
      | some h => if source = .software ∧ h ≠ .syscallWrapper ∧ cpl ≠ 0 then refused cs address vector source
        else .entered vector ⟨cs.toUInt32,address h⟩
          (if source = .exception ∧ pushesCode vector then some code else none) := by
  have hgpf : gateFor (idt cs address) cpl generalProtection .exception = .ok ⟨address .gpf,cs,attributesOf .gpf⟩ := by
    rw [gateFor_idt cs address hcpl]
    rfl
  rw [deliver,gateFor_idt cs address hcpl]
  cases hhandler : handlerOf vector with
  | none =>
    have hlarge : 32 ≤ vector := by
      by_contra hsmall
      exact handlerOf_exception vector (not_le.mp hsmall) hhandler
    have hcontributory : contributory vector = false := by
      simp only [contributory,List.mem_cons,List.not_mem_nil,or_false,decide_eq_false_iff_not]
      omega
    have hdouble : vector ≠ doubleFault := by
      simp only [doubleFault]
      omega
    simp only [hdouble,hcontributory,hgpf,and_false,Bool.false_eq_true,if_false]
    rfl
  | some h =>
    by_cases hsoftware : source = .software ∧ h ≠ .syscallWrapper ∧ cpl ≠ 0
    · have hexception : source ≠ .exception := by
        rw [hsoftware.1]
        decide
      simp only [if_pos hsoftware,hexception,hgpf,false_and,if_false]
      rfl
    · simp only [if_neg hsoftware]
      rfl

/-- Which handlers find an error code on their stack: those of type `HandlerFuncWithCode` and the
page-fault wrapper, which reads it above the registers. -/
def Handler.takesCode : Handler → Bool
  | .defaultExceptionWithCode | .gpf | .doubleFault | .pageFaultWrapper => true
  | _ => false

/-- What can raise a vector: the processor its exceptions, the two interrupt controllers the sixteen
vectors behind them, and only ring 3 executes `int`. -/
def Raised (cpl : UInt8) (vector : ℕ) : Source → Prop
  | .exception => vector < 32
  | .external => 32 ≤ vector ∧ vector < 48
  | .software => cpl = 3

theorem handlers_listed : ∀ vector < 256, ∀ h ∈ handlerOf vector, h.takesCode = pushesCode vector ∧
    (h = .syscallWrapper → vector = 0x80) := by decide +kernel

/-- The handlers agree with the processor about error codes. -/
theorem takesCode_eq {vector : ℕ} {h : Handler} (hhandler : handlerOf vector = some h) :
    h.takesCode = pushesCode vector :=
  (handlers_listed vector (handlerOf_lt hhandler) h hhandler).1

theorem handlerOf_syscall {vector : ℕ} (hhandler : handlerOf vector = some .syscallWrapper) : vector = 0x80 :=
  (handlers_listed vector (handlerOf_lt hhandler) _ hhandler).2 rfl

theorem pushesCode_of_le {vector : ℕ} (h : 32 ≤ vector) : pushesCode vector = false := by
  simp only [pushesCode,List.mem_cons,List.not_mem_nil,or_false,decide_eq_false_iff_not]
  omega

/-- Every interrupt arrives at a handler, through the kernel's code segment, and the processor has
pushed an error code exactly if that handler takes one; no interrupt shuts the machine down. -/
theorem interrupts_arrive (address : Handler → UInt32) {cpl : UInt8} (hcpl : cpl ≤ 3) {vector : ℕ} {source : Source}
    (hraised : Raised cpl vector source) (code : UInt32) :
    ∃ arrived h pushed,
      deliver (idt 0x08 address) cpl vector source code = .entered arrived (Contexts.gate (address h)) pushed ∧
      handlerOf arrived = some h ∧ pushed.isSome = h.takesCode := by
  have hrefused : ∃ arrived h pushed,
      refused 0x08 address vector source = .entered arrived (Contexts.gate (address h)) pushed ∧
      handlerOf arrived = some h ∧ pushed.isSome = h.takesCode := ⟨_,.gpf,_,rfl,rfl,rfl⟩
  rw [deliver_idt _ _ hcpl]
  cases hhandler : handlerOf vector with
  | none => exact hrefused
  | some h =>
    by_cases hsoftware : source = .software ∧ h ≠ .syscallWrapper ∧ cpl ≠ 0
    · simp only [if_pos hsoftware]
      exact hrefused
    · simp only [if_neg hsoftware]
      refine ⟨vector,h,_,rfl,hhandler,?_⟩
      cases source with
      | exception =>
        rw [takesCode_eq hhandler]
        cases pushesCode vector <;> simp
      | external =>
        rw [takesCode_eq hhandler,pushesCode_of_le hraised.1]
        rfl
      | software =>
        obtain rfl : h = .syscallWrapper := by
          by_contra hother
          refine hsoftware ⟨rfl,hother,?_⟩
          rw [show cpl = 3 from hraised]
          decide
        rfl

theorem interrupts_arrive_breakpoint : Raised 3 3 .software ∧ ∃ arrived h pushed,
    deliver (idt 0x08 fun _ => 0x100000) 3 3 .software 0 = .entered arrived (Contexts.gate 0x100000) pushed ∧
      handlerOf arrived = some h ∧ pushed.isSome = h.takesCode :=
  ⟨rfl,interrupts_arrive (fun _ => 0x100000) (by decide) (show Raised 3 3 .software from rfl) 0⟩

end Tables
end EnosKernel
