import Mathlib.Tactic

/-! Two 8259A interrupt controllers, the second behind line 2 of the first: how they are set up byte
by byte, which request they pass on and what they wait for then.  Rotating priorities, special masks
and polling are left out. -/
namespace EnosKernel
namespace Pic8259

abbrev Lines := Fin 8 → Bool

def bits (v : UInt8) : Lines := fun i => v.toNat.testBit i

/-- Which byte of the set-up sequence comes next. -/
inductive Stage
  | ready | icw2 | icw3 | icw4
  deriving DecidableEq, Repr

structure Config where
  stage : Stage
  withIcw4 : Bool
  single : Bool
  offset : UInt8
  cascade : UInt8
  autoEoi : Bool
  mode8086 : Bool
  mask : Lines
  deriving DecidableEq

structure Pic extends Config where
  requests : Lines
  inService : Lines
  deriving DecidableEq

def noLines : Lines := fun _ => false

def first (x : Lines) : Option (Fin 8) := (List.finRange 8).find? x

namespace Pic

/-- A write to the even port: a new set-up sequence, or the end of an interrupt. -/
def command (p : Pic) (v : UInt8) : Pic :=
  if bits v 4 then
    { p with
      stage := .icw2
      withIcw4 := bits v 0
      single := bits v 1
      autoEoi := false
      mode8086 := false
      mask := noLines
      requests := noLines
      inService := noLines }
  else if bits v 3 then p
  else if v >>> 5 = 1 then
    { p with inService := match first p.inService with
      | some i => Function.update p.inService i false
      | none => p.inService }
  else if v >>> 5 = 3 then { p with inService := Function.update p.inService (Fin.ofNat 8 (v &&& 7).toNat) false }
  else p

/-- A write to the odd port: the next byte of the sequence, or the mask. -/
def data (p : Pic) (v : UInt8) : Pic :=
  let last := if p.withIcw4 then Stage.icw4 else .ready
  match p.stage with
  | .icw2 => { p with offset := v &&& 0xF8, stage := if p.single then last else .icw3 }
  | .icw3 => { p with cascade := v, stage := last }
  | .icw4 => { p with mode8086 := bits v 0, autoEoi := bits v 1, stage := .ready }
  | .ready => { p with mask := bits v }

def request (p : Pic) (i : Fin 8) : Pic := { p with requests := Function.update p.requests i true }

def withdraw (p : Pic) (i : Fin 8) : Pic := { p with requests := Function.update p.requests i false }

/-- Requests that are not masked and above all that is in service. -/
def eligible (p : Pic) : Lines := fun i =>
  p.requests i && !p.mask i && (List.finRange 8).all fun j => !(decide (j ≤ i) && p.inService j)

/-- The request that the controller has the interrupt line up for. -/
def pending (p : Pic) : Option (Fin 8) := first p.eligible

def acknowledge (p : Pic) (i : Fin 8) : Pic :=
  { p with
    requests := Function.update p.requests i false
    inService := Function.update p.inService i !p.autoEoi }

end Pic

/-- The second controller is wired to line 2 of the first. -/
structure Pair where
  master : Pic
  slave : Pic
  deriving DecidableEq

namespace Pair

/-- A device raises one of the sixteen lines; line 2 is taken. -/
def request (p : Pair) (line : Fin 16) : Pair :=
  if line = 2 then p
  else if h : line.val < 8 then { p with master := p.master.request ⟨line.val,h⟩ }
  else { p with slave := p.slave.request ⟨line.val-8,by omega⟩ }

def withdraw (p : Pair) (line : Fin 16) : Pair :=
  if h : line.val < 8 then { p with master := p.master.withdraw ⟨line.val,h⟩ }
  else { p with slave := p.slave.withdraw ⟨line.val-8,by omega⟩ }

/-- The first controller with its line 2 as the second one drives it. -/
def wired (p : Pair) : Pic := { p.master with requests := Function.update p.master.requests 2 p.slave.pending.isSome }

/-- The processor takes an interrupt: the vector, from the controller that the request came in at.
Line 2 has no request of its own to withdraw. -/
def acknowledge (p : Pair) : Option (UInt8 × Pair) := p.wired.pending.map fun (i : Fin 8) =>
  if i = 2 ∧ bits p.master.cascade 2 ∧ p.slave.cascade &&& 7 = 2 then
    let master := { p.master with inService := Function.update p.master.inService 2 !p.master.autoEoi }
    match p.slave.pending with
    | some j => (p.slave.offset+UInt8.ofNat j.val,⟨master,p.slave.acknowledge j⟩)
    | none => (p.slave.offset+7,⟨master,p.slave⟩)
  else (p.master.offset+UInt8.ofNat i.val,{ p with master := p.master.acknowledge i })

def outb (p : Pair) (port : UInt16) (v : UInt8) : Pair :=
  if port = 0x20 then { p with master := p.master.command v }
  else if port = 0x21 then { p with master := p.master.data v }
  else if port = 0xA0 then { p with slave := p.slave.command v }
  else if port = 0xA1 then { p with slave := p.slave.data v }
  else p

end Pair

theorem first_eq_some {x : Lines} {i : Fin 8} : first x = some i ↔ x i ∧ ∀ j < i, x j = false := by
  rw [first,List.find?_eq_some_iff_getElem]
  constructor
  · rintro ⟨hi,k,hk,rfl,hbefore⟩
    refine ⟨hi,fun j hj => ?_⟩
    simp only [List.getElem_finRange,Fin.lt_def,Fin.val_cast] at hj
    simpa using hbefore j.val hj
  · rintro ⟨hi,hbefore⟩
    refine ⟨hi,i.val,by simp,by simp,fun j hj => ?_⟩
    simpa using hbefore ⟨j,hj.trans i.isLt⟩ hj

namespace Pic

theorem requests_of_pending {p : Pic} {i : Fin 8} (h : p.pending = some i) :
    p.requests i = true ∧ p.mask i = false := by
  have helig := (first_eq_some.mp h).1
  simp only [eligible,Bool.and_eq_true,Bool.not_eq_true'] at helig
  exact helig.1

/-- The same but for the requests that have come in. -/
def Alike (p q : Pic) : Prop := p.toConfig = q.toConfig ∧ p.inService = q.inService

theorem Alike.command {p q : Pic} (h : Alike p q) (v : UInt8) : Alike (p.command v) (q.command v) := by
  obtain ⟨hconfig,hservice⟩ := h
  unfold Pic.command
  split_ifs <;> simp [Alike,hconfig,hservice]

theorem Alike.data {p q : Pic} (h : Alike p q) (v : UInt8) : Alike (p.data v) (q.data v) := by
  obtain ⟨hconfig,hservice⟩ := h
  unfold Pic.data
  rw [hconfig]
  cases q.stage <;> simp [Alike,hservice]

theorem command_eoi {p : Pic} {i : Fin 8} (h : p.inService = Function.update noLines i true) :
    p.command 0x20 = { p with inService := noLines } := by
  have hfirst : first (Function.update noLines i true) = some i :=
    first_eq_some.mpr ⟨by simp,fun j hj => by simp [noLines,hj.ne]⟩
  have hcleared : Function.update (Function.update noLines i true) i false = noLines := by
    rw [Function.update_idem]
    exact Function.update_eq_self _ _
  have hword : bits 0x20 4 = false ∧ bits 0x20 3 = false ∧ (0x20 : UInt8) >>> 5 = 1 := by decide
  simp [command,h,hword,hfirst,hcleared]

theorem acknowledge_finished {p : Pic} (hmanual : p.autoEoi = false) (hidle : p.inService = noLines) (i : Fin 8) :
    (p.acknowledge i).command 0x20 = p.withdraw i := by
  rw [command_eoi (i := i) (by simp [acknowledge,hmanual,hidle])]
  simp [acknowledge,withdraw,hidle]

end Pic

namespace Pair

/-- What reaches the controllers: writes of the program, and requests of devices in between. -/
inductive Signal
  | out (port : UInt16) (v : UInt8)
  | request (line : Fin 16)
  deriving DecidableEq, Repr

def react (p : Pair) : Signal → Pair
  | .out port v => p.outb port v
  | .request line => p.request line

def outs (signals : List Signal) : List (UInt16 × UInt8) := signals.filterMap fun
  | .out port v => some (port,v)
  | .request _ => none

def outbs (p : Pair) (writes : List (UInt16 × UInt8)) : Pair := writes.foldl (fun p w => p.outb w.1 w.2) p

def Alike (p q : Pair) : Prop := p.master.Alike q.master ∧ p.slave.Alike q.slave

theorem Alike.outb {p q : Pair} (h : Alike p q) (port : UInt16) (v : UInt8) :
    Alike (p.outb port v) (q.outb port v) := by
  obtain ⟨hmaster,hslave⟩ := h
  unfold Pair.outb
  split_ifs
  · exact ⟨hmaster.command v,hslave⟩
  · exact ⟨hmaster.data v,hslave⟩
  · exact ⟨hmaster,hslave.command v⟩
  · exact ⟨hmaster,hslave.data v⟩
  · exact ⟨hmaster,hslave⟩

theorem Alike.request {p q : Pair} (h : Alike p q) (line : Fin 16) : Alike (p.request line) q := by
  unfold Pair.request
  split_ifs <;> exact h

/-- Requests in between do not disturb what is written. -/
theorem Alike.signals {p q : Pair} (h : Alike p q) (signals : List Signal) :
    Alike (signals.foldl react p) (q.outbs (outs signals)) := by
  induction signals generalizing p q with
  | nil => exact h
  | cons signal signals ih =>
    cases signal with
    | out port v => exact ih (h.outb port v)
    | request line => exact ih (h.request line)

theorem requests_request {p : Pair} {i : Fin 8} (hi : p.master.requests i = true) (line : Fin 16) :
    (p.request line).master.requests i = true := by
  unfold Pair.request
  split_ifs
  · exact hi
  · simp [Pic.request,Function.update_apply,hi]
  · exact hi

end Pair

end Pic8259
end EnosKernel
