import Mathlib.Tactic

/-! A 16550 serial port, the sending half: registers of which two share their addresses with the
divisor of the rate, and bytes that wait for the line. -/
namespace EnosKernel
namespace Uart16550

structure Uart where
  ier : UInt8
  fcr : UInt8
  lcr : UInt8
  mcr : UInt8
  divisorLow : UInt8
  divisorHigh : UInt8
  transmit : List UInt8
  line : List UInt8
  deriving DecidableEq, Repr

namespace Uart

/-- The bit that turns the first two addresses over to the divisor. -/
def dlab (u : Uart) : Bool := u.lcr &&& 0x80 ≠ 0

def fifo (u : Uart) : Bool := u.fcr &&& 0x01 ≠ 0

/-- Sixteen bytes wait in the FIFO and more are lost; without it a new byte replaces the old one. -/
def send (u : Uart) (v : UInt8) : Uart :=
  { u with transmit := if u.fifo then (if u.transmit.length < 16 then u.transmit++[v] else u.transmit) else [v] }

def outb (u : Uart) (offset : UInt16) (v : UInt8) : Uart :=
  if offset = 0 then if u.dlab then { u with divisorLow := v } else u.send v
  else if offset = 1 then if u.dlab then { u with divisorHigh := v } else { u with ier := v &&& 0x0F }
  else if offset = 2 then
    { u with fcr := v, transmit := if v &&& 0x04 ≠ 0 ∨ decide (v &&& 0x01 ≠ 0) ≠ u.fifo then [] else u.transmit }
  else if offset = 3 then { u with lcr := v }
  else if offset = 4 then { u with mcr := v &&& 0x1F }
  else u

def outbs (u : Uart) (writes : List (UInt16 × UInt8)) : Uart := writes.foldl (fun u w => u.outb w.1 w.2) u

/-- The line status: the bit for an empty transmitter, and the others as they may be. -/
def status (u : Uart) (others : UInt8) : UInt8 := (others &&& 0xDF) ||| (if u.transmit = [] then 0x20 else 0)

def shift (u : Uart) : Uart :=
  match u.transmit with
  | [] => u
  | b::rest => { u with transmit := rest, line := u.line++[b] }

theorem status_empty (u : Uart) (others : UInt8) : u.status others &&& 0x20 ≠ 0 ↔ u.transmit = [] := by
  have hclear : (others &&& 0xDF ||| 0) &&& 0x20 = 0 := by
    apply UInt8.eq_of_toBitVec_eq
    ext i hi
    interval_cases i <;> simp
  have hset : (others &&& 0xDF ||| 0x20) &&& 0x20 = 0x20 := by
    apply UInt8.eq_of_toBitVec_eq
    ext i hi
    interval_cases i <;> simp
  unfold status
  split_ifs with h
  · simp [hset,h]
  · rw [hclear]
    simp [h]

def registers (u : Uart) : List UInt8 := [u.ier,u.fcr,u.lcr,u.mcr,u.divisorLow,u.divisorHigh]

theorem dlab_congr {u v : Uart} (h : u.registers = v.registers) : u.dlab = v.dlab := by
  simp only [registers,List.cons.injEq] at h
  rw [dlab,dlab,h.2.2.1]

theorem shift_registers (u : Uart) : u.shift.registers = u.registers := by
  unfold shift
  split <;> rfl

theorem shift_empty {u : Uart} (h : u.transmit = []) : u.shift = u := by
  unfold shift
  rw [h]

theorem shift_line (u : Uart) : u.shift.line++u.shift.transmit = u.line++u.transmit := by
  unfold shift
  split
  · rfl
  · next b rest h => simp [h]

theorem send_transmit {u : Uart} (h : u.transmit = []) (v : UInt8) : (u.send v).transmit = [v] := by
  simp [send,h]

end Uart
end Uart16550
end EnosKernel
