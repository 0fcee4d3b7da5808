import EnosKernel.BitFields
import EnosKernel.MachineArith
import EnosKernel.Pic8259

/-! The driver of the interrupt controllers: the bytes that `initialize` writes and what they do to
controllers left in any state, and the end of an interrupt. -/
namespace EnosKernel
namespace InterruptController

open Pic8259

def pic1Cmd : UInt16 := 0x20
def pic1Data : UInt16 := 0x21
def pic2Cmd : UInt16 := 0xA0
def pic2Data : UInt16 := 0xA1
def picEoi : UInt8 := 0x20

def iowait : UInt16 × UInt8 := (0x80,0)

structure ChainedPics where
  offset1 : UInt8
  offset2 : UInt8
  deriving DecidableEq, Repr

namespace ChainedPics

def initializeWrites (c : ChainedPics) : List (UInt16 × UInt8) :=
  [(pic1Cmd,0x11),iowait,(pic2Cmd,0x11),iowait,
   (pic1Data,c.offset1),iowait,(pic2Data,c.offset2),iowait,
   (pic1Data,4),iowait,(pic2Data,2),iowait,
   (pic1Data,0x01),iowait,(pic2Data,0x01),iowait,
   (pic1Data,0xF8),(pic2Data,0xFF)]

/-- The sum is only formed if the first comparison holds. -/
def handlesInterrupt (c : ChainedPics) (interruptId : UInt8) : Except Panic Bool :=
  if c.offset1 ≤ interruptId then do
    let last ← MachineArith.add 8 c.offset2.toNat 8
    .ok (interruptId.toNat < last)
  else .ok false

def notifyEndOfInterrupt (c : ChainedPics) (interruptId : UInt8) : Except Panic (List (UInt16 × UInt8)) := do
  if ← c.handlesInterrupt interruptId then
    .ok ((if c.offset2 ≤ interruptId then [(pic2Cmd,picEoi)] else [])++[(pic1Cmd,picEoi)])
  else .ok []

end ChainedPics

def pics : ChainedPics := ⟨32,40⟩

def ack (irqIdx : UInt8) : Except Panic (List (UInt16 × UInt8)) := pics.notifyEndOfInterrupt irqIdx

/-- The set-up that `initialize` is after: requests 0 to 2 pass, all others are masked. -/
def masterConfig (c : ChainedPics) : Config := ⟨.ready,true,false,c.offset1 &&& 0xF8,4,false,true,bits 0xF8⟩
def slaveConfig (c : ChainedPics) : Config := ⟨.ready,true,false,c.offset2 &&& 0xF8,2,false,true,bits 0xFF⟩

/-- The controllers are set up and wait for nothing. -/
structure Initialized (c : ChainedPics) (p : Pair) : Prop where
  master : p.master.toConfig = masterConfig c
  slave : p.slave.toConfig = slaveConfig c
  masterIdle : p.master.inService = noLines
  slaveIdle : p.slave.inService = noLines

theorem Initialized.of_alike {c : ChainedPics} {p q : Pair} (h : p.Alike q) (hq : Initialized c q) : Initialized c p :=
  ⟨h.1.1.trans hq.master,h.2.1.trans hq.slave,h.1.2.trans hq.masterIdle,h.2.2.trans hq.slaveIdle⟩

theorem initialized_outbs (c : ChainedPics) (p : Pair) : Initialized c (p.outbs c.initializeWrites) :=
  ⟨rfl,rfl,rfl,rfl⟩

/-- In whatever state the firmware has left the controllers, even in the middle of a set-up, and
whichever requests come in between the writes: `initialize` sets them up. -/
theorem initialize_sets_up (c : ChainedPics) (p : Pair) {signals : List Pair.Signal}
    (h : Pair.outs signals = c.initializeWrites) : Initialized c (signals.foldl Pair.react p) := by
  have halike := Pair.Alike.signals (p := p) (q := p) ⟨⟨rfl,rfl⟩,rfl,rfl⟩ signals
  rw [h] at halike
  exact .of_alike halike (initialized_outbs c p)

/-- Offsets as the controllers can have them, with the second block of vectors behind the first; the
last block is out of reach, as the sum in `handles_interrupt` does not fit a byte then. -/
structure ChainedPics.Legal (c : ChainedPics) : Prop where
  first : c.offset1.toNat%8 = 0
  second : c.offset2.toNat%8 = 0
  behind : c.offset1.toNat+8 ≤ c.offset2.toNat
  fits : c.offset2.toNat+8 < 256

theorem pics_legal : pics.Legal := ⟨rfl,rfl,by decide,by decide⟩

def ChainedPics.vector (c : ChainedPics) (line : Fin 16) : ℕ :=
  if line.val < 8 then c.offset1.toNat+line.val else c.offset2.toNat+(line.val-8)

/-- The controllers work as `initialize` has set them up, under any mask, and nothing is in service. -/
structure Idle (c : ChainedPics) (p : Pair) : Prop where
  masterOffset : p.master.offset = c.offset1
  slaveOffset : p.slave.offset = c.offset2
  masterCascade : p.master.cascade = 4
  slaveCascade : p.slave.cascade = 2
  masterManual : p.master.autoEoi = false
  slaveManual : p.slave.autoEoi = false
  masterIdle : p.master.inService = noLines
  slaveIdle : p.slave.inService = noLines

theorem and_blockMask {x : UInt8} (hx : x.toNat%8 = 0) : x &&& 0xF8 = x := by
  have hbound := x.toNat_lt
  have hblock : x.toNat = 2^3*(x.toNat/8) := by omega
  have hmask := BitFields.and_highMask (n := 3) (m := 5) (k := x.toNat/8) (f := 0) (by omega) (by decide)
  rw [Nat.or_zero,← hblock] at hmask
  exact UInt8.toNat_inj.mp hmask

theorem Initialized.idle {c : ChainedPics} {p : Pair} (h : Initialized c p) (hc : c.Legal) : Idle c p := by
  have hmaster := h.master
  have hslave := h.slave
  exact ⟨by rw [hmaster]; exact and_blockMask hc.first,by rw [hslave]; exact and_blockMask hc.second,
    by rw [hmaster]; rfl,by rw [hslave]; rfl,by rw [hmaster]; rfl,by rw [hslave]; rfl,h.masterIdle,h.slaveIdle⟩

theorem vector_toNat (offset : UInt8) (h : offset.toNat+8 ≤ 256) (i : Fin 8) :
    (offset+UInt8.ofNat i.val).toNat = offset.toNat+i.val := by
  have hi := i.isLt
  rw [UInt8.toNat_add,UInt8.toNat_ofNat',Nat.mod_eq_of_lt (show i.val < 2^8 by omega),Nat.mod_eq_of_lt (by omega)]

theorem notify_eq {c : ChainedPics} (hc : c.Legal) {v : UInt8} (hfirst : c.offset1.toNat ≤ v.toNat)
    (hlast : v.toNat < c.offset2.toNat+8) : c.notifyEndOfInterrupt v =
      .ok ((if c.offset2.toNat ≤ v.toNat then [(pic2Cmd,picEoi)] else [])++[(pic1Cmd,picEoi)]) := by
  have hhandles : c.handlesInterrupt v = .ok true := by
    rw [ChainedPics.handlesInterrupt,if_pos (UInt8.le_iff_toNat_le.mpr hfirst),
      MachineArith.add_ok (by have := hc.fits; omega)]
    simp [hlast]
  rw [ChainedPics.notifyEndOfInterrupt,hhandles]
  simp [UInt8.le_iff_toNat_le]

/-- For each of the sixteen lines, under every mask: the vector that the processor is given is the
line's, and `notify_end_of_interrupt` with that vector reaches the controllers that wait for it, so that
nothing is in service again and only the request that has been served is gone. -/
theorem end_of_interrupt {c : ChainedPics} (hc : c.Legal) {p q : Pair} (h : Idle c p) {v : UInt8}
    (hack : p.acknowledge = some (v,q)) :
    ∃ line writes, v.toNat = c.vector line ∧ c.notifyEndOfInterrupt v = .ok writes ∧
    q.outbs writes = p.withdraw line := by
  obtain ⟨i,hpending,heq⟩ := Option.map_eq_some_iff.mp hack
  have hbehind := hc.behind
  have hfits := hc.fits
  have hi := i.isLt
  by_cases htwo : i = 2
  · -- the request came in at the second controller, and both are to be told
    have hslave : p.slave.pending.isSome := by
      have hrequest := (Pic.requests_of_pending hpending).1
      rw [htwo] at hrequest
      simpa [Pair.wired] using hrequest
    obtain ⟨j,hj⟩ := Option.isSome_iff_exists.mp hslave
    have hj' := j.isLt
    rw [if_pos ⟨htwo,by rw [h.masterCascade]; decide,by rw [h.slaveCascade]; decide⟩] at heq
    simp only [hj,h.slaveOffset,Prod.mk.injEq] at heq
    obtain ⟨rfl,rfl⟩ := heq
    have hv := vector_toNat c.offset2 (by omega) j
    refine ⟨⟨8+j.val,by omega⟩,_,?_,notify_eq hc (by omega) (by omega),?_⟩
    · rw [hv,ChainedPics.vector,if_neg (by simp)]
      simp
    · have hfinished := Pic.acknowledge_finished h.slaveManual h.slaveIdle j
      have hmaster := Pic.command_eoi
        (p := ⟨p.master.toConfig,p.master.requests,Function.update p.master.inService 2 !p.master.autoEoi⟩)
        (i := 2) (by simp [h.masterIdle,h.masterManual])
      have hsame : (⟨p.master.toConfig,p.master.requests,noLines⟩ : Pic) = p.master := by rw [← h.masterIdle]
      rw [if_pos (by omega)]
      change (⟨Pic.command ⟨p.master.toConfig,p.master.requests,_⟩ 0x20,Pic.command _ 0x20⟩ : Pair) = _
      rw [hfinished,hmaster]
      simp [Pair.withdraw,hsame]
  · rw [if_neg (fun hcond => htwo hcond.1)] at heq
    obtain ⟨rfl,rfl⟩ := Prod.mk.inj heq
    rw [h.masterOffset]
    have hv := vector_toNat c.offset1 (by omega) i
    refine ⟨⟨i.val,by omega⟩,_,?_,notify_eq hc (by omega) (by omega),?_⟩
    · rw [hv,ChainedPics.vector,if_pos hi]
    · rw [if_neg (by omega)]
      change (⟨Pic.command _ 0x20,_⟩ : Pair) = _
      rw [Pic.acknowledge_finished h.masterManual h.masterIdle]
      simp [Pair.withdraw]

def samplePair : Pair where
  master := { masterConfig pics with mask := noLines, requests := noLines, inService := noLines }
  slave := { slaveConfig pics with mask := noLines, requests := bits 0x10, inService := noLines }

theorem end_of_interrupt_mouse : pics.Legal ∧ Idle pics samplePair ∧ ∃ q, samplePair.acknowledge = some (44,q) ∧
    ∃ line writes, (44 : UInt8).toNat = pics.vector line ∧ pics.notifyEndOfInterrupt 44 = .ok writes ∧
      q.outbs writes = samplePair.withdraw line := by
  have hidle : Idle pics samplePair := ⟨rfl,rfl,rfl,rfl,rfl,rfl,rfl,rfl⟩
  have hack : ∃ q, samplePair.acknowledge = some (44,q) := ⟨_,rfl⟩
  obtain ⟨q,hq⟩ := hack
  exact ⟨pics_legal,hidle,q,hq,end_of_interrupt pics_legal hidle hq⟩

end InterruptController
end EnosKernel
