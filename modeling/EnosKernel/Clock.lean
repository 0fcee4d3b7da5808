import EnosKernel.DecimalText
import EnosKernel.LineEditor
import EnosKernel.Pit8254
import EnosKernel.SchedulerAccounting

/-! Time: the rate at which `pit::init` lets the timer interrupt, and what `uptime` makes of the ticks
that the scheduler has counted. -/
namespace EnosKernel
namespace Clock

open Pit8254 RustStr DecimalText Scheduler Shell

def pitChannel0 : UInt16 := 0x40
def pitCommand : UInt16 := 0x43
def pitInputHz : UInt32 := 1193182
def defaultHz : UInt32 := 100

def clamp (x low high : UInt32) : UInt32 := if x < low then low else if high < x then high else x

def wantedHz (requestedHz : UInt32) : UInt32 := if requestedHz = 0 then defaultHz else requestedHz

def divisorU32 (requestedHz : UInt32) : UInt32 := clamp (pitInputHz/wantedHz requestedHz) 1 65535

/-- The writes to ports, and the line on the serial port. -/
def init (requestedHz : UInt32) : List (UInt16 × UInt8) × List Char :=
  let divisor := (divisorU32 requestedHz).toUInt16
  let actualHz := pitInputHz/divisorU32 requestedHz
  ([(pitCommand,0x36),(pitChannel0,(divisor &&& 0x00FF).toUInt8),(pitChannel0,(divisor >>> 8).toUInt8)],
    "PIT: configured to ".toList++decimal actualHz.toNat++ " Hz (requested ".toList++
      decimal (wantedHz requestedHz).toNat++ " Hz, divisor ".toList++decimal divisor.toNat++ ").".toList)

def initDefault : List (UInt16 × UInt8) × List Char := init defaultHz

def programmed (c : Counter) (writes : List (UInt16 × UInt8)) : Counter := writes.foldl (fun c w => c.outb w.1 w.2) c

theorem wantedHz_pos (requestedHz : UInt32) : 0 < (wantedHz requestedHz).toNat := by
  unfold wantedHz
  split_ifs with h
  · decide
  · exact UInt32.pos_iff_ne_zero.mpr h

theorem divisorU32_toNat (requestedHz : UInt32) :
    (divisorU32 requestedHz).toNat = max 1 (min (1193182/(wantedHz requestedHz).toNat) 65535) := by
  have hquotient : (pitInputHz/wantedHz requestedHz).toNat = 1193182/(wantedHz requestedHz).toNat :=
    UInt32.toNat_div _ _
  have hone : (1 : UInt32).toNat = 1 := rfl
  have hlast : (65535 : UInt32).toNat = 65535 := rfl
  unfold divisorU32 clamp
  simp only [UInt32.lt_iff_toNat_lt,hquotient,hone,hlast]
  split_ifs <;> simp only [hone,hlast,hquotient] <;> omega

theorem programmed_init (c : Counter) (requestedHz : UInt32) : programmed c (init requestedHz).1 =
    ⟨3,false,3,none,some (divisorU32 requestedHz).toUInt16⟩ := by
  have hbytes := bytes_count (divisorU32 requestedHz).toUInt16
  change (⟨3,false,3,none,some (_ ||| _)⟩ : Counter) = _
  rw [hbytes]

/-- Whatever state the counter was in, `pit::init` has the timer interrupt at the lowest rate that is
not below the one asked for, as far as sixteen bits allow; a rate above the input clock's gets the
divisor 1, which is below the least count of 2 that the counter takes in this mode. -/
theorem timer_rate (c : Counter) (requestedHz : UInt32) :
    let after := programmed c (init requestedHz).1
    let hz := (wantedHz requestedHz).toNat
    after.mode = 3 ∧ after.bcd = false ∧ ∃ d, after.period = some d ∧
      (hz ≤ 1193182 → IsGreatest {d : ℕ | 0 < d ∧ d ≤ 65535 ∧ hz*d ≤ 1193182} d) ∧ (1193182 < hz → d = 1) := by
  intro after hz
  have hpos : 0 < hz := wantedHz_pos requestedHz
  have hafter : after = _ := programmed_init c requestedHz
  have hdivisor := divisorU32_toNat requestedHz
  change _ = max 1 (min (1193182/hz) 65535) at hdivisor
  have hcount : ((divisorU32 requestedHz).toUInt16).toNat = (divisorU32 requestedHz).toNat := by
    rw [UInt32.toNat_toUInt16,Nat.mod_eq_of_lt (by omega)]
  have hne : (divisorU32 requestedHz).toUInt16 ≠ 0 := by
    intro hzero
    rw [hzero] at hcount
    simp at hcount
    omega
  refine ⟨by rw [hafter],by rw [hafter],(divisorU32 requestedHz).toNat,
    by rw [hafter]; simp [Counter.period,hne,hcount],?_,?_⟩
  · intro hle
    have hquotient : 0 < 1193182/hz := Nat.div_pos hle hpos
    have hmul : hz*(divisorU32 requestedHz).toNat ≤ 1193182 :=
      (Nat.mul_le_mul_left hz (by omega)).trans (Nat.mul_div_le 1193182 hz)
    refine ⟨⟨by omega,by omega,hmul⟩,?_⟩
    rintro d ⟨-,hd,hrate⟩
    have hd' : d ≤ 1193182/hz := (Nat.le_div_iff_mul_le hpos).mpr (by rwa [Nat.mul_comm])
    omega
  · intro hlt
    rw [hdivisor,Nat.div_eq_of_lt hlt]
    rfl

/-- A time of day as it is printed, in milliseconds. -/
def readDuration (text : List Char) : Option ℕ :=
  match readNumber text with
  | (hours,':'::rest) =>
    match readNumber rest with
    | (minutes,':'::rest) =>
      let (seconds,_) := readNumber rest
      if seconds.places = 3 then some ((hours.digits*60+minutes.digits)*60000+seconds.digits) else none
    | _ => none
  | _ => none

def readUptime (text : List Char) : Option ℕ := (stripPrefix "Uptime: ".toList text).bind readDuration

theorem readDuration_text (ticks : ℕ) {rest : List Char} (hrest : ∀ c ∈ rest.head?, ¬c.isDigit) :
    readDuration (durationText (formatDurationFromTicks ticks)++rest) = some (ticksToMs ticks) := by
  have hcolon (tail : List Char) : (∀ c ∈ (':'::tail).head?, ¬c.isDigit) ∧ (':'::tail).head? ≠ some '.' := by simp
  have htext (h m s ms : ℕ) : durationText (h,m,s,ms)++rest = padZero 2 (decimal h)++ ':'::(padZero 2 (decimal m)++
      ':'::(padZero 2 (decimal s)++ '.'::(padZero 3 (decimal ms)++rest))) := by simp [durationText]
  unfold formatDurationFromTicks
  generalize ticksToMs ticks = total
  rw [htext,readDuration,readNumber_padZero (hcolon _).1 (hcolon _).2]
  simp only
  rw [readNumber_padZero (hcolon _).1 (hcolon _).2]
  simp only
  have hms : total%1000 < 10^3 := Nat.mod_lt _ (by decide)
  rw [readNumber_padZero_fraction hrest _ _ 3 _ hms (by decide)]
  simp only [if_true,Option.some.injEq]
  omega

theorem readUptime_text (s : State) : ∃ text, (commandUptime s).output = s.output++[.text text] ∧
    readUptime text = some (ticksToMs s.scheduler.tickCount.toNat) := by
  refine ⟨_,rfl,?_⟩
  have hstrip (text : List Char) : stripPrefix "Uptime: ".toList ("Uptime: ".toList++text) = some text := by
    simp [stripPrefix]
  simp only [List.append_assoc]
  rw [readUptime,hstrip,Option.bind_some]
  exact readDuration_text _ (by simp)

/-- The time that the timer takes for a number of interrupts, in milliseconds. -/
def elapsedMs (c : Counter) (n : ℕ) : Option ℚ := c.period.map fun d => (n*d*1000 : ℚ)/1193182

/-- On every run of the scheduler from boot, `uptime` shows 10 ms for each tick.  The timer takes a
little less for each of them, so that the clock is ahead by 820/1193182 ms a tick, one second in about
four hours. -/
theorem uptime_reading (c : Counter) {path : List (Op × Traced)} (hpath : Runs.Along Traced.Call .new path)
    (hfew : tickCalls .new path*1000 < 2^64) {s : State} (hs : s.scheduler = (Runs.final .new path).manager) :
    let n := tickCalls .new path
    ∃ text shown elapsed, (commandUptime s).output = s.output++[.text text] ∧ readUptime text = some shown ∧
      shown = 10*n ∧ elapsedMs (programmed c initDefault.1) n = some elapsed ∧
      (shown : ℚ)-elapsed = n*820/1193182 := by
  intro n
  obtain ⟨text,hprinted,hread⟩ := readUptime_text s
  have hticks : s.scheduler.tickCount.toNat = n := by
    rw [hs]
    exact tickCount_exact hpath (by omega)
  have hshown : ticksToMs n = 10*n := by
    have hsaturating : MachineArith.saturatingMul 64 n 1000 = n*1000 := min_eq_left (by omega)
    rw [ticksToMs,hsaturating,ticksPerSecond]
    omega
  have hperiod : (programmed c initDefault.1).period = some 11931 := by
    rw [initDefault,programmed_init]
    rfl
  refine ⟨text,10*n,_,hprinted,by rw [hread,hticks,hshown],rfl,by rw [elapsedMs,hperiod]; rfl,?_⟩
  push_cast
  ring

theorem uptime_reading_two_ticks : Runs.Along Traced.Call .new earlyTick ∧ ∃ text,
    (commandUptime (State.boot (Runs.final .new earlyTick).manager)).output = [.text text] ∧
    readUptime text = some 20 := by
  have hfew : tickCalls .new earlyTick*1000 < 2^64 := by decide
  obtain ⟨text,shown,elapsed,hprinted,hread,hshown,-⟩ := uptime_reading ⟨0,true,1,some 7,none⟩ earlyTick_along hfew
    (s := State.boot (Runs.final .new earlyTick).manager) rfl
  exact ⟨earlyTick_along,text,hprinted,by rw [hread,hshown]; rfl⟩

end Clock
end EnosKernel
