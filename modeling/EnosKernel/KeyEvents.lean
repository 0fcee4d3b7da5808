import EnosKernel.KeyDecoding
import EnosKernel.ScancodeQueue

/-! Key events on their way from the keyboard to `process_scancode`.  An extended event is two
bytes on the wire, and a full queue refuses bytes, not events. -/
namespace EnosKernel
namespace Shell

/-- A key event: one byte, or two of which the first is 0xe0. -/
structure KeyEvent where
  extended : Bool
  code : UInt8
  whole : code ≠ 0xe0
  deriving DecidableEq

/-- A byte on the wire, and the event that it completes. -/
structure Part where
  byte : UInt8
  completes : Option KeyEvent
  deriving DecidableEq

namespace KeyEvent

def bytes (event : KeyEvent) : List UInt8 :=
  if event.extended then [0xe0,event.code] else [event.code]

def parts (event : KeyEvent) : List Part :=
  if event.extended then [⟨0xe0,none⟩,⟨event.code,some event⟩] else [⟨event.code,some event⟩]

theorem filterMap_completes_parts (event : KeyEvent) : event.parts.filterMap Part.completes = [event] := by
  unfold parts
  split_ifs <;> rfl

end KeyEvent

/-- The byte is the prefix, or the code of the event it completes. -/
def Part.Tagged (part : Part) : Prop :=
  match part.completes with
  | none => part.byte = 0xe0
  | some event => part.byte = event.code

theorem KeyEvent.parts_tagged {event : KeyEvent} {part : Part} (h : part ∈ event.parts) : part.Tagged := by
  unfold parts at h
  split_ifs at h
  · rcases List.mem_pair.mp h with rfl | rfl <;> rfl
  · rw [List.mem_singleton.mp h]
    rfl

namespace KeyboardState

/-- The event that `process_scancode` takes a byte for. -/
def reading (keyboard : KeyboardState) (byte : UInt8) : Option KeyEvent :=
  if h : byte = 0xe0 then none else some ⟨keyboard.extendedPrefix,byte,h⟩

theorem reading_eq_completes_iff (keyboard : KeyboardState) {part : Part} (h : part.Tagged) :
    keyboard.reading part.byte = part.completes ↔
      ∀ event, part.completes = some event → (event.extended = true ↔ keyboard.extendedPrefix = true) := by
  obtain ⟨byte,_ | ⟨extended,code,whole⟩⟩ := part
  · obtain rfl : byte = 0xe0 := h
    simp [reading]
  · obtain rfl : byte = code := h
    simp only [reading,dif_neg whole,Option.some.injEq,KeyEvent.mk.injEq,and_true,forall_eq']
    rw [Bool.eq_iff_iff]
    exact iff_comm

def readings (keyboard : KeyboardState) : List UInt8 → List (Option KeyEvent)
  | [] => []
  | byte::bytes => keyboard.reading byte::(keyboard.decode byte).2.readings bytes

theorem readings_concat (keyboard : KeyboardState) (bytes : List UInt8) (byte : UInt8) :
    keyboard.readings (bytes++[byte]) = keyboard.readings bytes++[(keyboard.scan bytes).reading byte] := by
  induction bytes generalizing keyboard with
  | nil => rfl
  | cons first bytes ih => simp [readings,ih]

theorem scan_extendedPrefix {keyboard : KeyboardState} {before : List UInt8}
    (h : keyboard.extendedPrefix = decide (before.getLast? = some 0xe0)) (bytes : List UInt8) :
    (keyboard.scan bytes).extendedPrefix = decide ((before++bytes).getLast? = some 0xe0) := by
  induction bytes generalizing keyboard before with
  | nil => simpa using h
  | cons byte bytes ih =>
    have hfirst : (keyboard.decode byte).2.extendedPrefix = decide ((before++[byte]).getLast? = some 0xe0) := by
      rw [decode_extendedPrefix,List.getLast?_concat]
      simp
    rw [scan_cons,ih hfirst,List.append_assoc,List.singleton_append]

end KeyboardState

/-- A byte that is taken for an event does to the shell what the event's own bytes do when no
prefix is outstanding. -/
theorem State.processScancode_reading {s : State} {byte : UInt8} {event : KeyEvent}
    (h : s.keyboard.reading byte = some event) (heapOffset : ℕ) :
    s.processScancode heapOffset byte = event.bytes.foldlM (processScancode heapOffset)
      { s with keyboard := { s.keyboard with extendedPrefix := false } } := by
  obtain ⟨buffer,⟨shiftPressed,capsLock,extendedPrefix⟩,history,user,files,scheduler,output⟩ := s
  unfold KeyboardState.reading at h
  split_ifs at h with hlead
  cases h
  cases extendedPrefix with
  | true =>
    simp only [KeyEvent.bytes,if_true,List.foldlM_cons,List.foldlM_nil,bind_pure]
    rfl
  | false => simp only [KeyEvent.bytes,Bool.false_eq_true,if_false,List.foldlM_cons,List.foldlM_nil,bind_pure]

/-- The wire, the queue and the shell.  `sent` and `taken` are bookkeeping: what each accepted
byte completes, and what each byte handed over was taken for. -/
structure Intake where
  wire : List Part
  input : InputState
  shell : State
  sent : List (Option KeyEvent)
  taken : List (Option KeyEvent)

inductive IntakeStep
  /-- The next byte raises the keyboard interrupt. -/
  | arrive
  /-- The background thread calls `poll_input`. -/
  | poll
  /-- One turn of its loop, with the heap and the tasks as they are then. -/
  | turn (heapOffset : ℕ) (tasks : Scheduler.TaskManager)

namespace Intake

def start (scheduler : Scheduler.TaskManager) (events : List KeyEvent) : Intake where
  wire := events.flatMap KeyEvent.parts
  input := .new
  shell := (State.boot scheduler).init
  sent := []
  taken := []

def apply (c : Intake) : IntakeStep → Except Panic Intake
  | .arrive =>
    match c.wire with
    | [] => .ok c
    | part::wire => do
      let input ← c.input.apply (.enqueue part.byte)
      .ok { c with
        wire := wire
        input := input
        sent := if c.input.queue.len = scancodeQueueCapacity then c.sent else c.sent++[part.completes] }
  | .poll => do
    let input ← c.input.apply .poll
    .ok { c with input := input }
  | .turn heapOffset tasks => do
    let input ← c.input.apply .turn
    match input.handed[c.input.handed.length]? with
    | none => .ok { c with input := input }
    | some byte => do
      let shell ← State.processScancode heapOffset { c.shell with scheduler := tasks } byte
      .ok { c with
        input := input
        shell := shell
        taken := c.taken++[c.shell.keyboard.reading byte] }

def Step (c : Intake) (step : IntakeStep) (d : Intake) : Prop := c.apply step = .ok d

/-- Every accepted byte is taken for the event that it completes: so it was, if it has been
handed over, and so it will be, if it is still pending. -/
def Intact (c : Intake) : Prop := c.taken++c.shell.keyboard.readings c.input.queue.pending = c.sent

instance (c : Intake) : Decidable c.Intact := inferInstanceAs (Decidable (_ = _))

/-- A byte that finds room and completes an event comes behind an accepted 0xe0 exactly if the
event is an extended one. -/
def Fits (c : Intake) : IntakeStep → Prop
  | .arrive => ∀ part event wire, c.wire = part::wire → part.completes = some event →
      c.input.queue.len < scancodeQueueCapacity → (event.extended = true ↔ c.input.accepted.getLast? = some 0xe0)
  | _ => True

inductive Outcome (c : Intake) : IntakeStep → Intake → Prop
  | idle {step : IntakeStep} (polling : Option ℕ) (hstep : step = .arrive → c.wire = []) :
      Outcome c step { c with input := { c.input with polling := polling } }
  | dropped {part : Part} {wire : List Part} (hwire : c.wire = part::wire)
      (hfull : c.input.queue.len = scancodeQueueCapacity) : Outcome c .arrive { c with wire := wire }
  | accepted {part : Part} {wire : List Part} {q : ScancodeQueue} (hwire : c.wire = part::wire)
      (hroom : c.input.queue.len < scancodeQueueCapacity) (hq : q.WellFormed)
      (hpending : q.pending = c.input.queue.pending++[part.byte]) :
      Outcome c .arrive { c with
        wire := wire
        input := { c.input with queue := q, accepted := c.input.accepted++[part.byte] }
        sent := c.sent++[part.completes] }
  | handed {heapOffset : ℕ} {tasks : Scheduler.TaskManager} {byte : UInt8} {q : ScancodeQueue}
      {polling : Option ℕ} {shell : State} (hq : q.WellFormed) (hpending : c.input.queue.pending = byte::q.pending)
      (hshell : State.processScancode heapOffset { c.shell with scheduler := tasks } byte = .ok shell) :
      Outcome c (.turn heapOffset tasks) { c with
        input := { c.input with queue := q, polling := polling, handed := c.input.handed++[byte] }
        shell := shell
        taken := c.taken++[c.shell.keyboard.reading byte] }

variable {c d : Intake}

theorem Step.outcome {step : IntakeStep} (hq : c.input.queue.WellFormed) (h : c.Step step d) : Outcome c step d := by
  match step with
  | .arrive =>
    match hwire : c.wire with
    | [] =>
      simp only [Step,apply,hwire] at h
      cases h
      exact .idle c.input.polling fun _ => hwire
    | part::wire =>
      simp only [Step,apply,hwire] at h
      rcases InputState.enqueue_eq hq part.byte with ⟨hfull,hpush⟩ | ⟨hroom,q,hq',hpending,hpush⟩
      · rw [hpush,if_pos hfull] at h
        cases h
        exact .dropped hwire hfull
      · rw [hpush,if_neg hroom.ne] at h
        cases h
        exact .accepted hwire hroom hq' hpending
  | .poll =>
    obtain ⟨polling,hpoll⟩ := InputState.poll_eq c.input
    simp only [Step,apply,hpoll] at h
    cases h
    exact .idle polling (by simp)
  | .turn heapOffset tasks =>
    simp only [Step,apply] at h
    rcases InputState.turn_eq hq with ⟨polling,hturn⟩ | ⟨byte,polling,q,hq',hpending,hturn⟩
    · rw [hturn] at h
      simp only [MachineArith.ok_bind,List.getElem?_eq_none le_rfl] at h
      cases h
      exact .idle polling (by simp)
    · rw [hturn] at h
      simp only [MachineArith.ok_bind,List.getElem?_concat_length] at h
      obtain ⟨shell,hshell,hd⟩ := MachineArith.bind_eq_ok.mp h
      cases hd
      exact .handed hq' hpending hshell

/-- The queue is in order, the prefix flag is that of the last byte handed over, and what was
sent and what is to come are events of the stream, in its order. -/
structure Linked (events : List KeyEvent) (c : Intake) : Prop where
  fifo : c.input.Fifo
  flag : c.shell.keyboard.extendedPrefix = decide (c.input.handed.getLast? = some 0xe0)
  tagged : ∀ part ∈ c.wire, part.Tagged
  origin : (c.sent.filterMap id++c.wire.filterMap Part.completes).Sublist events

namespace Linked

variable {events : List KeyEvent}

theorem start (scheduler : Scheduler.TaskManager) (events : List KeyEvent) :
    Linked events (start scheduler events) where
  fifo := .new
  flag := rfl
  tagged := by
    intro part hpart
    obtain ⟨event,-,hmem⟩ := List.mem_flatMap.mp hpart
    exact KeyEvent.parts_tagged hmem
  origin := by
    have hall : (events.flatMap KeyEvent.parts).filterMap Part.completes = events := by
      simp [List.filterMap_flatMap,KeyEvent.filterMap_completes_parts]
    rw [Intake.start,hall]
    exact List.Sublist.refl _

theorem step {step : IntakeStep} (h : Linked events c) (hstep : c.Step step d) : Linked events d := by
  cases hstep.outcome h.fifo.wellFormed with
  | idle polling => exact ⟨⟨h.fifo.wellFormed,h.fifo.order⟩,h.flag,h.tagged,h.origin⟩
  | @dropped part wire hwire =>
    have horigin := h.origin
    rw [hwire,← List.singleton_append,List.filterMap_append,← List.append_assoc] at horigin
    refine ⟨h.fifo,h.flag,fun part hpart => h.tagged part (hwire ▸ List.mem_cons_of_mem _ hpart),?_⟩
    exact (List.Sublist.append (List.sublist_append_left _ _) (List.Sublist.refl _)).trans horigin
  | @accepted part wire q hwire hroom hq hpending =>
    have horigin := h.origin
    rw [hwire,← List.singleton_append,List.filterMap_append,← List.append_assoc] at horigin
    refine ⟨⟨hq,?_⟩,h.flag,fun part hpart => h.tagged part (hwire ▸ List.mem_cons_of_mem _ hpart),?_⟩
    · rw [hpending,← List.append_assoc,h.fifo.order]
    · rw [List.filterMap_append]
      exact horigin
  | @handed heapOffset tasks byte q polling shell hq hpending hshell =>
    refine ⟨⟨hq,?_⟩,?_,h.tagged,h.origin⟩
    · rw [← h.fifo.order,hpending]
      simp
    · rw [State.processScancode_keyboard hshell,KeyboardState.decode_extendedPrefix,List.getLast?_concat]
      simp

theorem flag_ahead (h : Linked events c) : (c.shell.keyboard.scan c.input.queue.pending).extendedPrefix =
    decide (c.input.accepted.getLast? = some 0xe0) := by
  rw [KeyboardState.scan_extendedPrefix h.flag,h.fifo.order]

/-- One step leaves the events intact exactly if they were and the byte fits. -/
theorem intact_iff {step : IntakeStep} (h : Linked events c) (hstep : c.Step step d) :
    d.Intact ↔ c.Intact ∧ c.Fits step := by
  cases hstep.outcome h.fifo.wellFormed with
  | idle polling hcalm =>
    refine (and_iff_left ?_).symm
    cases step with
    | arrive =>
      intro part event wire hwire
      rw [hcalm rfl] at hwire
      cases hwire
    | poll => trivial
    | turn => trivial
  | dropped hwire hfull =>
    refine (and_iff_left ?_).symm
    intro _ _ _ _ _ hroom
    exact absurd hfull hroom.ne
  | @accepted part wire q hwire hroom hq hpending =>
    -- the byte is read behind all pending ones, so its flag is that of the byte accepted last
    have hpart : part.Tagged := h.tagged part (hwire ▸ List.mem_cons_self)
    have hfits : c.Fits .arrive ↔
        (c.shell.keyboard.scan c.input.queue.pending).reading part.byte = part.completes := by
      rw [KeyboardState.reading_eq_completes_iff _ hpart,h.flag_ahead]
      simp only [Fits,hwire,List.cons.injEq,decide_eq_true_eq]
      exact ⟨fun hall event hevent => hall part event wire ⟨rfl,rfl⟩ hevent hroom,
        fun hall _ event _ hcons hevent _ => hall event (hcons.1 ▸ hevent)⟩
    rw [hfits]
    simp only [Intact,hpending,KeyboardState.readings_concat,← List.append_assoc]
    exact List.append_singleton_inj
  | @handed heapOffset tasks byte q polling shell hq hpending hshell =>
    refine Iff.trans ?_ (and_iff_left trivial).symm
    simp only [Intact,hpending,KeyboardState.readings,State.processScancode_keyboard hshell,List.append_assoc,
      List.singleton_append]

theorem taken_sublist (h : Linked events c) (hintact : c.Intact) : (c.taken.filterMap id).Sublist events := by
  have hsent : (c.sent.filterMap id).Sublist events := (List.sublist_append_left _ _).trans h.origin
  rw [← hintact,List.filterMap_append] at hsent
  exact (List.sublist_append_left _ _).trans hsent

end Linked

/-- In every interleaving of arriving bytes and polling the events stay intact exactly if every
accepted byte fits; then the events taken are events of the stream, in order. -/
theorem key_events_iff (scheduler : Scheduler.TaskManager) (events : List KeyEvent)
    {path : List (IntakeStep × Intake)} (h : Runs.Along Step (start scheduler events) path) :
    ((Runs.final (start scheduler events) path).Intact ↔
      Runs.Along (fun c step _ => c.Fits step) (start scheduler events) path) ∧
    ((Runs.final (start scheduler events) path).Intact →
      ((Runs.final (start scheduler events) path).taken.filterMap id).Sublist events) := by
  have hstart := Linked.start scheduler events
  have hstep : ∀ c step d, Linked events c → Step c step d → Linked events d := fun _ _ _ => Linked.step
  refine ⟨?_,(h.reachable.invariant hstep hstart).taken_sublist⟩
  have hexact := Runs.final_iff hstep (fun _ _ _ hlinked hstep => hlinked.intact_iff hstep) hstart h
  exact hexact.trans (and_iff_right rfl)

theorem exists_run {β : Type*} (c : Intake) (f : Intake → β) (value : β) (steps : List IntakeStep)
    (h : Except.map f (steps.foldlM apply c) = .ok value) :
    ∃ path, Runs.Along Step c path ∧ f (Runs.final c path) = value := by
  cases hrun : steps.foldlM apply c with
  | error e =>
    rw [hrun] at h
    cases h
  | ok d =>
    rw [hrun] at h
    obtain ⟨path,hpath,hfinal⟩ := Runs.exists_path hrun
    exact ⟨path,hpath,by rw [hfinal]; exact Except.ok.inj h⟩

def leftArrow : KeyEvent := ⟨true,0x4b,by decide⟩

/-- The arrow key alone, polled at once. -/
theorem key_events_leftArrow : ∃ path, Runs.Along Step (start .new [leftArrow]) path ∧
    (Runs.final (start .new [leftArrow]) path).taken = [none,some leftArrow] ∧
    Runs.Along (fun c step _ => c.Fits step) (start .new [leftArrow]) path := by
  obtain ⟨path,hpath,hfinal⟩ := exists_run (start .new [leftArrow]) (fun c => (c.taken,decide c.Intact))
    ([none,some leftArrow],true) [.arrive,.arrive,.poll,.turn 0 .new,.turn 0 .new] (by decide +kernel)
  obtain ⟨htaken,hintact⟩ := Prod.mk.inj hfinal
  exact ⟨path,hpath,htaken,(key_events_iff .new [leftArrow] hpath).1.mp (of_decide_eq_true hintact)⟩

def overfull : List KeyEvent := List.replicate 128 ⟨false,0x9e,by decide⟩++[leftArrow]

/-- The queue is full when the prefix of the arrow key arrives and has room for its code: the
arrow key types a `4`. -/
theorem leftArrow_types_digit : ∃ path, Runs.Along Step (start .new overfull) path ∧
    ¬ (Runs.final (start .new overfull) path).Intact ∧
    (Runs.final (start .new overfull) path).shell.inputBuffer = ['4'] := by
  obtain ⟨path,hpath,hfinal⟩ := exists_run (start .new overfull)
    (fun c => (decide c.Intact,c.shell.inputBuffer)) (false,['4'])
    (List.replicate 129 .arrive++[.poll,.turn 0 .new,.arrive]++List.replicate 128 (.turn 0 .new)++
      [.poll,.turn 0 .new]) (by decide +kernel)
  obtain ⟨hintact,hbuffer⟩ := Prod.mk.inj hfinal
  exact ⟨path,hpath,of_decide_eq_false hintact,hbuffer⟩

end Intake
end Shell
end EnosKernel
