import EnosKernel.CircularBuffer
import EnosKernel.MachineArith
import EnosKernel.Runs

/-! The scancode queue of `shell.rs` between the keyboard interrupt and `poll_input`.  An
index outside the array panics, and so does a counter that leaves its width. -/
namespace EnosKernel
namespace Shell

def scancodeQueueCapacity : ℕ := 128

structure ScancodeQueue where
  data : Vector UInt8 scancodeQueueCapacity
  head : ℕ
  tail : ℕ
  len : ℕ
  deriving Repr

namespace ScancodeQueue

def new : ScancodeQueue where
  data := Vector.replicate scancodeQueueCapacity 0
  head := 0
  tail := 0
  len := 0

def push (q : ScancodeQueue) (scancode : UInt8) : Except Panic (Bool × ScancodeQueue) :=
  if q.len = scancodeQueueCapacity then .ok (false,q)
  else if h : q.tail < scancodeQueueCapacity then do
    let data := q.data.set q.tail scancode h
    let next ← MachineArith.add 32 q.tail 1
    let len ← MachineArith.add 32 q.len 1
    .ok (true,{ q with data := data, tail := next % scancodeQueueCapacity, len := len })
  else .error .indexOutOfBounds

def pop (q : ScancodeQueue) : Except Panic (Option UInt8 × ScancodeQueue) :=
  if q.len = 0 then .ok (none,q)
  else if h : q.head < scancodeQueueCapacity then do
    let scancode := q.data[q.head]
    let next ← MachineArith.add 32 q.head 1
    .ok (some scancode,{ q with head := next % scancodeQueueCapacity, len := q.len-1 })
  else .error .indexOutOfBounds

def cells (q : ScancodeQueue) (idx : ℕ) : UInt8 := q.data[idx]?.getD 0

/-- The pending scancodes, oldest first. -/
def pending (q : ScancodeQueue) : List UInt8 :=
  CircularBuffer.window q.cells scancodeQueueCapacity q.head q.len

/-- The three counters describe one window of the array. -/
structure WellFormed (q : ScancodeQueue) : Prop where
  head_lt : q.head < scancodeQueueCapacity
  tail_lt : q.tail < scancodeQueueCapacity
  len_le : q.len ≤ scancodeQueueCapacity
  tail_eq : q.tail = (q.head+q.len) % scancodeQueueCapacity

theorem new_wellFormed : WellFormed new := by
  constructor <;> decide

@[simp] theorem length_pending (q : ScancodeQueue) : q.pending.length = q.len :=
  CircularBuffer.length_window _ _ _ _

theorem cells_set (q : ScancodeQueue) (scancode : UInt8) (h : q.tail < scancodeQueueCapacity)
    (tail len : ℕ) :
    cells { q with data := q.data.set q.tail scancode h, tail := tail, len := len } =
      Function.update q.cells q.tail scancode := by
  funext idx
  by_cases hidx : idx = q.tail
  · subst hidx
    simp [cells,h]
  · simp [cells,Function.update_of_ne hidx,Vector.getElem?_set_ne _ (Ne.symm hidx)]

namespace WellFormed

variable {q : ScancodeQueue}

theorem push (h : WellFormed q) (scancode : UInt8) :
    (q.len = scancodeQueueCapacity ∧ q.push scancode = .ok (false,q)) ∨
    (q.len < scancodeQueueCapacity ∧ ∃ q', q.push scancode = .ok (true,q') ∧ WellFormed q' ∧
      q'.pending = q.pending++[scancode]) := by
  by_cases hfull : q.len = scancodeQueueCapacity
  · exact Or.inl ⟨hfull,if_pos hfull⟩
  · have hlen : q.len < scancodeQueueCapacity := lt_of_le_of_ne h.len_le hfull
    have hnext : MachineArith.add 32 q.tail 1 = .ok (q.tail+1) :=
      MachineArith.add_ok (by have := h.tail_lt; simp only [scancodeQueueCapacity] at this; omega)
    have hcount : MachineArith.add 32 q.len 1 = .ok (q.len+1) :=
      MachineArith.add_ok (by simp only [scancodeQueueCapacity] at hlen; omega)
    refine Or.inr ⟨hlen,{ q with
      data := q.data.set q.tail scancode h.tail_lt
      tail := (q.tail+1) % scancodeQueueCapacity
      len := q.len+1 },?_,⟨h.head_lt,Nat.mod_lt _ (by decide),hlen,?_⟩,?_⟩
    · rw [ScancodeQueue.push,if_neg hfull,dif_pos h.tail_lt,hnext,hcount]
      rfl
    · change (q.tail+1) % scancodeQueueCapacity = (q.head+(q.len+1)) % scancodeQueueCapacity
      rw [h.tail_eq]
      exact CircularBuffer.next_end
    · rw [pending,cells_set]
      change CircularBuffer.window (Function.update q.cells q.tail scancode) _ q.head (q.len+1) = _
      rw [h.tail_eq]
      exact CircularBuffer.window_push q.cells scancode hlen

theorem pop (h : WellFormed q) :
    (q.pending = [] ∧ q.pop = .ok (none,q)) ∨
    ∃ scancode q', q.pop = .ok (some scancode,q') ∧ WellFormed q' ∧ q.pending = scancode::q'.pending := by
  cases hlen : q.len with
  | zero => exact Or.inl ⟨by simp [pending,hlen],if_pos hlen⟩
  | succ len =>
    have hnext : MachineArith.add 32 q.head 1 = .ok (q.head+1) :=
      MachineArith.add_ok (by have := h.head_lt; simp only [scancodeQueueCapacity] at this; omega)
    have hle := h.len_le
    have hlt := h.head_lt
    refine Or.inr ⟨q.data[q.head],{ q with
      head := (q.head+1) % scancodeQueueCapacity
      len := q.len-1 },?_,⟨Nat.mod_lt _ (by decide),h.tail_lt,?_,?_⟩,?_⟩
    · rw [ScancodeQueue.pop,if_neg (by omega),dif_pos hlt,hnext]
      rfl
    · exact (Nat.sub_le _ _).trans hle
    · rw [h.tail_eq]
      simp only [hlen,Nat.add_sub_cancel]
      exact CircularBuffer.next_start.symm
    · have hcell : q.cells q.head = q.data[q.head] := by simp [cells,hlt]
      rw [pending,hlen,CircularBuffer.window_pop q.cells hlt,hcell]
      simp only [pending,Nat.add_sub_cancel]
      rfl

end WellFormed
end ScancodeQueue

/-- The queue between its two users.  `polling` is the loop counter of a `poll_input` call in
progress; `accepted` and `handed` record what was pushed with success and what was given
to `process_scancode`. -/
structure InputState where
  queue : ScancodeQueue
  polling : Option ℕ
  accepted : List UInt8
  handed : List UInt8

inductive InputStep
  /-- `enqueue_scancode_from_irq`. -/
  | enqueue (scancode : UInt8)
  /-- The background thread calls `poll_input`. -/
  | poll
  /-- One turn of the loop of `poll_input`. -/
  | turn
  deriving DecidableEq, Repr

namespace InputState

def new : InputState where
  queue := .new
  polling := none
  accepted := []
  handed := []

def apply (s : InputState) : InputStep → Except Panic InputState
  | .enqueue scancode => do
    let (taken,queue) ← s.queue.push scancode
    .ok { s with
      queue := queue
      accepted := if taken then s.accepted++[scancode] else s.accepted }
  | .poll =>
    match s.polling with
    | none => .ok { s with polling := some 0 }
    | some _ => .ok s
  | .turn =>
    match s.polling with
    | none => .ok s
    | some processed =>
      if processed < scancodeQueueCapacity then do
        let (scancode,queue) ← s.queue.pop
        match scancode with
        | none => .ok { s with queue := queue, polling := none }
        | some scancode => .ok { s with
            queue := queue
            polling := some (processed+1)
            handed := s.handed++[scancode] }
      else .ok { s with polling := none }

def Step (s : InputState) (step : InputStep) (t : InputState) : Prop := s.apply step = .ok t

def Reached (s : InputState) : Prop := Runs.Reachable Step new s

section Specification

variable {s : InputState}

theorem enqueue_eq (h : s.queue.WellFormed) (scancode : UInt8) :
    (s.queue.len = scancodeQueueCapacity ∧ s.apply (.enqueue scancode) = .ok s) ∨
    (s.queue.len < scancodeQueueCapacity ∧ ∃ q : ScancodeQueue, q.WellFormed ∧ q.pending = s.queue.pending++[scancode] ∧
      s.apply (.enqueue scancode) = .ok { s with queue := q, accepted := s.accepted++[scancode] }) := by
  rcases h.push scancode with ⟨hfull,hpush⟩ | ⟨hlen,q,hpush,hq,hpending⟩
  · exact Or.inl ⟨hfull,by simp only [apply,hpush,MachineArith.ok_bind]; rfl⟩
  · exact Or.inr ⟨hlen,q,hq,hpending,by simp only [apply,hpush,MachineArith.ok_bind]; rfl⟩

theorem turn_eq (h : s.queue.WellFormed) :
    (∃ polling, s.apply .turn = .ok { s with polling := polling }) ∨
    ∃ scancode polling, ∃ q : ScancodeQueue, q.WellFormed ∧ s.queue.pending = scancode::q.pending ∧
      s.apply .turn = .ok { s with queue := q, polling := polling, handed := s.handed++[scancode] } := by
  cases hpoll : s.polling with
  | none =>
    have hidle : s.apply .turn = .ok s := by simp only [apply,hpoll]
    exact Or.inl ⟨s.polling,hidle⟩
  | some processed =>
    by_cases hlimit : processed < scancodeQueueCapacity
    · rcases h.pop with ⟨-,hpop⟩ | ⟨scancode,q,hpop,hq,hpending⟩
      · exact Or.inl ⟨none,by simp only [apply,hpoll,if_pos hlimit,hpop,MachineArith.ok_bind]⟩
      · exact Or.inr ⟨scancode,some (processed+1),q,hq,hpending,
          by simp only [apply,hpoll,if_pos hlimit,hpop,MachineArith.ok_bind]⟩
    · exact Or.inl ⟨none,by simp only [apply,hpoll,if_neg hlimit]⟩

theorem poll_eq (s : InputState) : ∃ polling, s.apply .poll = .ok { s with polling := polling } := by
  obtain ⟨queue,polling,accepted,handed⟩ := s
  cases polling <;> exact ⟨_,rfl⟩

end Specification

/-- What was handed over and what is pending make up what was accepted, in order. -/
structure Fifo (s : InputState) : Prop where
  wellFormed : s.queue.WellFormed
  order : s.handed++s.queue.pending = s.accepted

namespace Fifo

variable {s t : InputState}

theorem new : Fifo new := ⟨ScancodeQueue.new_wellFormed,rfl⟩

theorem enqueue (h : Fifo s) (scancode : UInt8) : ∃ t, s.apply (.enqueue scancode) = .ok t ∧ Fifo t := by
  rcases enqueue_eq h.wellFormed scancode with ⟨-,hsame⟩ | ⟨-,q,hq,hpending,hpush⟩
  · exact ⟨s,hsame,h⟩
  · refine ⟨_,hpush,hq,?_⟩
    simp only [hpending,← List.append_assoc,h.order]

theorem turn (h : Fifo s) : ∃ t, s.apply .turn = .ok t ∧ Fifo t := by
  rcases turn_eq h.wellFormed with ⟨polling,hsame⟩ | ⟨scancode,polling,q,hq,hpending,hpop⟩
  · exact ⟨_,hsame,h.wellFormed,h.order⟩
  · refine ⟨_,hpop,hq,?_⟩
    rw [← h.order,hpending]
    simp

theorem apply (h : Fifo s) (step : InputStep) : ∃ t, s.apply step = .ok t ∧ Fifo t := by
  cases step with
  | enqueue scancode => exact h.enqueue scancode
  | poll =>
    obtain ⟨polling,hpoll⟩ := poll_eq s
    exact ⟨_,hpoll,h.wellFormed,h.order⟩
  | turn => exact h.turn

theorem step (h : Fifo s) {step : InputStep} (hstep : s.Step step t) : Fifo t := by
  obtain ⟨t',happly,ht⟩ := h.apply step
  exact Except.ok.inj (happly.symm.trans hstep) ▸ ht

end Fifo

theorem Reached.fifo {s : InputState} (h : s.Reached) : Fifo s :=
  Runs.Reachable.invariant (I := Fifo) (fun _ _ _ hs hstep => hs.step hstep) Fifo.new h

/-- The queue is a bounded first-in first-out buffer from the interrupt to `process_scancode`. -/
theorem scancode_queue_fifo {s : InputState} (h : s.Reached) :
    (s.queue.head < 128 ∧ s.queue.tail < 128 ∧ s.queue.len ≤ 128 ∧
      s.queue.tail = (s.queue.head+s.queue.len) % 128) ∧
    (∀ scancode, ∃ taken queue, s.queue.push scancode = .ok (taken,queue) ∧
      (taken = false ↔ s.queue.pending.length = 128) ∧ (taken = false → queue = s.queue)) ∧
    s.handed++s.queue.pending = s.accepted ∧ s.handed <+: s.accepted ∧
    ∀ step, ∃ t, s.Step step t := by
  have hs := h.fifo
  have hq := hs.wellFormed
  refine ⟨⟨hq.head_lt,hq.tail_lt,hq.len_le,hq.tail_eq⟩,?_,hs.order,⟨_,hs.order⟩,
    fun step => (hs.apply step).imp fun _ => And.left⟩
  intro scancode
  rw [ScancodeQueue.length_pending]
  rcases hq.push scancode with ⟨hfull,hpush⟩ | ⟨hlen,q,hpush,-,-⟩
  · exact ⟨false,s.queue,hpush,by simpa [scancodeQueueCapacity] using hfull,fun _ => rfl⟩
  · exact ⟨true,q,hpush,by simpa [scancodeQueueCapacity] using hlen.ne,by simp⟩

/-- One key is pressed and polled. -/
theorem scancode_queue_fifo_firstKey : ∃ s : InputState, s.Reached ∧ s.handed = [0x1e] ∧
    s.handed <+: s.accepted := by
  obtain ⟨t₁,h₁⟩ : ∃ t, new.Step (.enqueue 0x1e) t := ⟨_,rfl⟩
  obtain ⟨t₂,h₂⟩ : ∃ t, t₁.Step .poll t := by cases h₁; exact ⟨_,rfl⟩
  obtain ⟨t₃,h₃⟩ : ∃ t, t₂.Step .turn t := by cases h₁; cases h₂; exact ⟨_,rfl⟩
  have hreached : t₃.Reached := .head ⟨_,h₁⟩ (.head ⟨_,h₂⟩ (.single ⟨_,h₃⟩))
  refine ⟨t₃,hreached,?_,(scancode_queue_fifo hreached).2.2.2.1⟩
  cases h₁
  cases h₂
  cases h₃
  rfl

end InputState
end Shell
end EnosKernel
