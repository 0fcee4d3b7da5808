import EnosKernel.RustStr
import EnosKernel.Runs
import EnosKernel.Uart16550

/-! The serial log: what `init` makes of a port in any state, and the way of a text through
`write_str` and the port to the other end of the line. -/
namespace EnosKernel
namespace SerialPort

open Uart16550

/-- The writes of `init`, as offsets from the port. -/
def initWrites : List (UInt16 × UInt8) := [(1,0x00),(3,0x80),(0,0x03),(1,0x00),(3,0x03),(2,0xC7),(4,0x0B)]

def isTransmitEmpty (status : UInt8) : Bool := status &&& 0x20 ≠ 0

/-- The bytes that `write_str` writes for one of the text. -/
def translate (byte : UInt8) : List UInt8 := if byte = 10 then [13,10] else [byte]

def writeStr (s : List Char) : List UInt8 := (RustStr.bytes s).flatMap translate

/-- The port, the bytes that are still to be written, and whether the loop of `write_byte` has seen the
transmitter empty. -/
structure Port where
  uart : Uart
  todo : List UInt8
  ready : Bool
  deriving DecidableEq, Repr

inductive Act
  | print (text : List Char)
  | poll (others : UInt8)
  | write
  | shift
  deriving DecidableEq, Repr

/-- The port is locked for a whole text; its line goes on by itself. -/
def Step (s : Port) (a : Act) (t : Port) : Prop :=
  match a with
  | .print text => s.todo = [] ∧ t = { s with todo := writeStr text }
  | .poll others => s.todo ≠ [] ∧ s.ready = false ∧ t = { s with ready := isTransmitEmpty (s.uart.status others) }
  | .write => s.ready = true ∧ ∃ b rest, s.todo = b::rest ∧ t = ⟨s.uart.outb 0 b,rest,false⟩
  | .shift => t = { s with uart := s.uart.shift }

def Port.start (u : Uart) : Port := ⟨u.outbs initWrites,[],false⟩

def Act.text : Act → List Char
  | .print text => text
  | _ => []

def printed (path : List (Act × Port)) : List Char := path.flatMap fun e => e.1.text

/-- Whatever was left in the registers, `init` sets the rate of 38400 baud, eight bits without parity
and one stop bit, and the FIFO with nothing in it.  The interrupts of the port are off then, unless the
firmware had left the divisor selected: the first write goes to the divisor in that case. -/
theorem outbs_initWrites (u : Uart) : u.outbs initWrites =
    { ier := if u.dlab then u.ier else 0, fcr := 0xC7, lcr := 0x03, mcr := 0x0B, divisorLow := 3, divisorHigh := 0,
      transmit := [], line := u.line } := by
  have hfirst : u.outb 1 0x00 = if u.dlab then { u with divisorHigh := 0 } else { u with ier := 0 } := rfl
  have hrest : u.outbs initWrites = (u.outb 1 0x00).outbs [(3,0x80),(0,0x03),(1,0x00),(3,0x03),(2,0xC7),(4,0x0B)] := rfl
  have hbits : (0x0B : UInt8) &&& 0x1F = 0x0B ∧ (0xC7 : UInt8) &&& 0x04 ≠ 0 := by decide
  rw [hrest,hfirst]
  split_ifs <;> simp [Uart.outbs,Uart.outb,Uart.dlab,hbits]

/-- The other end takes a carriage return with a line feed for one line feed. -/
def receive : List UInt8 → List UInt8
  | [] => []
  | [b] => [b]
  | b::c::rest => if b = 13 ∧ c = 10 then 10::receive rest else b::receive (c::rest)

theorem receive_cons {b : UInt8} {rest : List UInt8} (h : b = 13 → rest.head? ≠ some 10) :
    receive (b::rest) = b::receive rest := by
  cases rest with
  | nil => rfl
  | cons c rest =>
    rw [receive,if_neg]
    rintro ⟨hb,rfl⟩
    exact h hb rfl

theorem head_translate (bs : List UInt8) : (bs.flatMap translate).head? ≠ some 10 := by
  cases bs with
  | nil => simp
  | cons b bs =>
    rw [List.flatMap_cons]
    unfold translate
    split_ifs with hb
    · simp
    · simpa using hb

/-- No text is ambiguous on the line, not even one with carriage returns of its own. -/
theorem receive_translate (bs : List UInt8) : receive (bs.flatMap translate) = bs := by
  induction bs with
  | nil => rfl
  | cons b bs ih =>
    by_cases hb : b = 10
    · rw [List.flatMap_cons,translate,if_pos hb,List.cons_append,List.cons_append,List.nil_append,receive,
        if_pos ⟨rfl,rfl⟩,ih,hb]
    · rw [List.flatMap_cons,translate,if_neg hb,List.cons_append,List.nil_append,
        receive_cons fun _ => head_translate bs,ih]

theorem receive_writeStr (text : List Char) : RustStr.fromUtf8 (receive (writeStr text)) = some text := by
  rw [writeStr,receive_translate,RustStr.fromUtf8_eq_some]

theorem writeStr_append (first second : List Char) : writeStr (first++second) = writeStr first++writeStr second := by
  rw [writeStr,RustStr.bytes_append,List.flatMap_append]
  rfl

/-- What is on the line and what is on its way to it. -/
def Port.content (s : Port) : List UInt8 := s.uart.line++s.uart.transmit++s.todo

/-- The registers select the transmitter, and the loop of `write_byte` has only ended on an empty one. -/
structure Port.Sound (s : Port) : Prop where
  dlab : s.uart.dlab = false
  empty : s.ready = true → s.uart.transmit = []

theorem Port.Sound.start (u : Uart) : (Port.start u).Sound := by
  have hlcr : decide ((0x03 : UInt8) &&& 0x80 ≠ 0) = false := by decide
  rw [Port.start,outbs_initWrites]
  exact ⟨hlcr,fun h => nomatch h⟩

theorem content_start (u : Uart) : (Port.start u).content = u.line := by
  rw [Port.start,outbs_initWrites]
  simp [Port.content]

theorem Port.Sound.step {s t : Port} {a : Act} (h : s.Sound) (hstep : Step s a t) :
    t.Sound ∧ t.uart.registers = s.uart.registers ∧ t.content = s.content++writeStr a.text := by
  cases a with
  | print text =>
    obtain ⟨htodo,rfl⟩ := hstep
    exact ⟨⟨h.dlab,h.empty⟩,rfl,by simp [content,htodo,Act.text]⟩
  | poll others =>
    obtain ⟨-,-,rfl⟩ := hstep
    refine ⟨⟨h.dlab,fun hready => ?_⟩,rfl,by simp [content,Act.text,writeStr,RustStr.bytes]⟩
    exact (Uart.status_empty s.uart others).mp (by simpa [isTransmitEmpty] using hready)
  | write =>
    obtain ⟨hready,b,rest,htodo,rfl⟩ := hstep
    have hempty := h.empty hready
    have hout : s.uart.outb 0 b = s.uart.send b := by
      rw [Uart.outb,if_pos rfl,if_neg (by simp [h.dlab])]
    refine ⟨⟨by rw [hout]; exact h.dlab,fun hfalse => absurd hfalse Bool.false_ne_true⟩,by rw [hout]; rfl,?_⟩
    simp [content,hout,Uart.send_transmit hempty,hempty,htodo,Act.text,writeStr,RustStr.bytes]
    rfl
  | shift =>
    obtain rfl := hstep
    refine ⟨⟨?_,fun hready => ?_⟩,s.uart.shift_registers,?_⟩
    · rw [Uart.dlab_congr s.uart.shift_registers]
      exact h.dlab
    · have hempty := h.empty hready
      change s.uart.shift.transmit = []
      rwa [Uart.shift_empty hempty]
    · simp [content,Uart.shift_line,Act.text,writeStr,RustStr.bytes]

/-- Along a run the line and what is on its way make up all that was there and has been printed. -/
theorem Port.Sound.run {s : Port} (h : s.Sound) {path : List (Act × Port)} (hpath : Runs.Along Step s path) :
    (Runs.final s path).Sound ∧ (Runs.final s path).uart.registers = s.uart.registers ∧
    (Runs.final s path).content = s.content++writeStr (printed path) := by
  induction path generalizing s with
  | nil => exact ⟨h,rfl,by simp [Runs.final,printed,writeStr,RustStr.bytes]⟩
  | cons e path ih =>
    obtain ⟨hsound,hregisters,hcontent⟩ := h.step hpath.1
    obtain ⟨hfinal,hkept,hrest⟩ := ih hsound hpath.2
    refine ⟨hfinal,hkept.trans hregisters,?_⟩
    have hprinted : printed (e::path) = e.1.text++printed path := by simp [printed]
    rw [Runs.final,hrest,hcontent,hprinted,writeStr_append,List.append_assoc]

def Quiet (s : Port) (a : Act) (t : Port) : Prop := Step s a t ∧ a.text = []

theorem Port.Sound.quiet {s t : Port} (h : s.Sound) (hrun : Runs.Reachable Quiet s t) :
    t.Sound ∧ t.content = s.content := by
  refine hrun.invariant (I := fun t => t.Sound ∧ t.content = s.content) ?_ ⟨h,rfl⟩
  rintro t a u ⟨ht,hcontent⟩ ⟨hstep,htext⟩
  obtain ⟨hu,-,hnext⟩ := ht.step hstep
  refine ⟨hu,?_⟩
  rw [hnext,hcontent,htext]
  exact List.append_nil _

theorem drain (s : Port) :
    ∃ t, Runs.Reachable Quiet s t ∧ t.uart.transmit = [] ∧ t.todo = s.todo ∧ t.ready = s.ready := by
  generalize hwait : s.uart.transmit = waiting
  induction waiting generalizing s with
  | nil => exact ⟨s,.refl,hwait,rfl,rfl⟩
  | cons b waiting ih =>
    have hnext : ({ s with uart := s.uart.shift } : Port).uart.transmit = waiting := by
      simp [Uart.shift,hwait]
    obtain ⟨t,hrun,htransmit,htodo,hready⟩ := ih _ hnext
    exact ⟨t,.head ⟨.shift,rfl,rfl⟩ hrun,htransmit,htodo,hready⟩

theorem write_next {s : Port} (hempty : s.uart.transmit = []) {b : UInt8} {rest : List UInt8}
    (htodo : s.todo = b::rest) :
    ∃ t, Runs.Reachable Quiet s t ∧ t.todo = rest := by
  have hwrite (s : Port) (hready : s.ready = true) (htodo : s.todo = b::rest) :
      Quiet s .write ⟨s.uart.outb 0 b,rest,false⟩ :=
    ⟨⟨hready,b,rest,htodo,rfl⟩,rfl⟩
  cases hready : s.ready with
  | true => exact ⟨_,.single ⟨_,hwrite s hready htodo⟩,rfl⟩
  | false =>
    have hseen : isTransmitEmpty (s.uart.status 0) = true := by
      simpa [isTransmitEmpty] using (Uart.status_empty s.uart 0).mpr hempty
    have hpoll : Quiet s (.poll 0) { s with ready := true } := ⟨⟨by simp [htodo],hready,by rw [hseen]⟩,rfl⟩
    exact ⟨_,.head ⟨_,hpoll⟩ (.single ⟨_,hwrite { s with ready := true } rfl htodo⟩),rfl⟩

theorem finish (s : Port) : ∃ t, Runs.Reachable Quiet s t ∧ t.todo = [] ∧ t.uart.transmit = [] := by
  generalize hrest : s.todo = rest
  induction rest generalizing s with
  | nil =>
    obtain ⟨t,hrun,hempty,htodo,-⟩ := drain s
    exact ⟨t,hrun,htodo.trans hrest,hempty⟩
  | cons b rest ih =>
    obtain ⟨t,hdrain,hempty,htodo,-⟩ := drain s
    obtain ⟨u,hwrite,hnext⟩ := write_next hempty (htodo.trans hrest)
    obtain ⟨v,hrun,hdone⟩ := ih u hnext
    exact ⟨v,hdrain.trans (hwrite.trans hrun),hdone⟩

/-- The log gets through, whatever was left in the port: on every run, with the line at any pace, the
port keeps to 38400 baud and eight bits without parity; what has gone out is the beginning of the texts
printed so far, and all of them once nothing is left to write or to send; it can always come to that
without further texts; and the other end reads exactly those texts.  The interrupts of the port stay as
the firmware left them if it left the divisor selected. -/
theorem serial_text_arrives (u : Uart) {path : List (Act × Port)} (hpath : Runs.Along Step (Port.start u) path) :
    let t := Runs.final (Port.start u) path
    let sent := writeStr (printed path)
    t.uart.registers = [if u.dlab then u.ier else 0,0xC7,0x03,0x0B,3,0] ∧
    t.uart.line <+: u.line++sent ∧
    (t.todo = [] → t.uart.transmit = [] → t.uart.line = u.line++sent) ∧
    (∃ v, Runs.Reachable Quiet t v ∧ v.todo = [] ∧ v.uart.transmit = [] ∧ v.uart.line = u.line++sent) ∧
    RustStr.fromUtf8 (receive sent) = some (printed path) := by
  intro t sent
  obtain ⟨hsound,hregisters,hcontent⟩ := (Port.Sound.start u).run hpath
  rw [content_start] at hcontent
  change t.content = u.line++sent at hcontent
  have hdone : ∀ v : Port, v.content = t.content → v.todo = [] → v.uart.transmit = [] → v.uart.line = u.line++sent := by
    intro v hv htodo hempty
    rw [hcontent] at hv
    simpa only [Port.content,htodo,hempty,List.append_nil] using hv
  refine ⟨?_,?_,hdone t rfl,?_,receive_writeStr _⟩
  · exact hregisters.trans (congrArg Uart.registers (outbs_initWrites u))
  · rw [← hcontent,Port.content,List.append_assoc]
    exact List.prefix_append _ _
  · obtain ⟨v,hrun,htodo,hempty⟩ := finish t
    exact ⟨v,hrun,htodo,hempty,hdone v (hsound.quiet hrun).2 htodo hempty⟩

theorem serial_text_arrives_newline :
    ∃ v : Port, v.todo = [] ∧ v.uart.transmit = [] ∧ v.uart.line = [0x2E,0x0D,0x0D,0x0A] ∧
    RustStr.fromUtf8 (receive [0x0D,0x0D,0x0A]) = some ['\r','\n'] := by
  let u : Uart := ⟨0x01,0,0x83,0,1,0,[0x41],[0x2E]⟩
  have hpath : Runs.Along Step (Port.start u)
      [(.print ['\r','\n'],{ Port.start u with todo := writeStr ['\r','\n'] })] :=
    ⟨⟨rfl,rfl⟩,trivial⟩
  have hsent : writeStr ['\r','\n'] = [0x0D,0x0D,0x0A] := by decide
  obtain ⟨-,-,-,⟨v,-,htodo,hempty,hline⟩,hread⟩ := serial_text_arrives u hpath
  change v.uart.line = [0x2E]++writeStr ['\r','\n'] at hline
  change RustStr.fromUtf8 (receive (writeStr ['\r','\n'])) = _ at hread
  rw [hsent] at hline hread
  exact ⟨v,htodo,hempty,hline,hread⟩

end SerialPort
end EnosKernel
