import EnosKernel.KeyDecoding

/-! Walking through the history with the arrow keys.  The walk is over positions: the entries
in order, and one place past the end where the typed line is kept. -/
namespace EnosKernel
namespace Shell

inductive Arrow
  | up | down
  deriving DecidableEq, Repr

def Arrow.code : Arrow → UInt8
  | .up => 0x48
  | .down => 0x50

inductive ArrowEvent
  | pressed (key : Arrow)
  | released (key : Arrow)
  deriving DecidableEq, Repr

namespace ArrowEvent

def scancodes : ArrowEvent → List UInt8
  | .pressed key => [0xe0,key.code]
  | .released key => [0xe0,0x80 ||| key.code]

def moved (count position : ℕ) : ArrowEvent → ℕ
  | .pressed .up => position-1
  | .pressed .down => min (position+1) count
  | .released _ => position

def walk (count : ℕ) (events : List ArrowEvent) : ℕ := events.foldl (moved count) count

end ArrowEvent

/-- The entry at a position; past the end stands the typed line. -/
def lineAt (entries : List (List Char)) (typed : List Char) (position : ℕ) : List Char :=
  entries.getD position typed

@[simp] theorem lineAt_length (entries : List (List Char)) (typed : List Char) :
    lineAt entries typed entries.length = typed := by simp [lineAt]

namespace State

/-- The editor shows what stands at a position of the walk, and still knows the typed line. -/
structure Navigating (entries : List (List Char)) (typed : List Char) (position : ℕ) (s : State) : Prop where
  ok : s.Ok
  buffer : s.inputBuffer = lineAt entries typed position
  entries : s.history.entries = entries
  position : s.history.position = position
  draft : s.history.index ≠ none → s.history.draft = typed

namespace Navigating

variable {entries : List (List Char)} {typed : List Char} {position : ℕ} {s : State}

theorem start (hok : s.Ok) (hindex : s.history.index = none) :
    Navigating s.history.entries s.inputBuffer s.history.entries.length s where
  ok := hok
  buffer := (lineAt_length _ _).symm
  entries := rfl
  position := by rw [HistoryState.position,hindex]; rfl
  draft := fun h => absurd hindex h

theorem withKeyboard (h : Navigating entries typed position s) (keyboard : KeyboardState)
    (scheduler : Scheduler.TaskManager) :
    Navigating entries typed position { s with keyboard := keyboard, scheduler := scheduler } :=
  ⟨⟨h.ok.buffer,h.ok.history⟩,h.buffer,h.entries,h.position,h.draft⟩

theorem position_le (h : Navigating entries typed position s) : position ≤ entries.length := by
  have hle := HistoryState.InRange.position_le h.ok.history.index
  rwa [h.position,h.entries] at hle

theorem saved (h : Navigating entries typed position s) :
    (if s.history.index = none then s.inputBuffer else s.history.draft) = typed := by
  split_ifs with hindex
  · have hend := h.position
    rw [HistoryState.position,hindex,Option.getD_none,h.entries] at hend
    rw [h.buffer,← hend,lineAt_length]
  · exact h.draft hindex

theorem up (h : Navigating entries typed position s) :
    ∃ t, s.historyUp = .ok t ∧ Navigating entries typed (position-1) t := by
  obtain ⟨answer,hprevious,ha,hup⟩ := h.ok.historyUp
  refine ⟨_,hup,?_⟩
  by_cases hempty : s.history.entries = []
  · have hzero : position = 0 := by
      have hle := h.position_le
      rw [← h.entries,hempty] at hle
      exact Nat.le_zero.mp hle
    rw [HistoryState.previous,if_pos hempty] at hprevious
    cases hprevious
    simpa [State.showEntry,hzero] using h
  · obtain ⟨entry,hentry,hcall⟩ := HistoryState.previous_eq h.ok.history.index hempty s.inputBuffer
    cases hcall.symm.trans hprevious
    rw [showEntry_some h.ok.buffer (ha.1 entry rfl)]
    rw [h.position,h.entries] at hentry
    -- the draft is overwritten only past the end, where the buffer is the typed line
    refine ⟨⟨ha.1 entry rfl,ha.2⟩,?_,h.entries,?_,fun _ => h.saved⟩
    · simp [lineAt,hentry]
    · rw [← h.position]
      rfl

theorem down (h : Navigating entries typed position s) :
    ∃ t, s.historyDown = .ok t ∧ Navigating entries typed (min (position+1) entries.length) t := by
  obtain ⟨answer,hnext,ha,hdown⟩ := h.ok.historyDown
  refine ⟨_,hdown,?_⟩
  cases hindex : s.history.index with
  | none =>
    have hend : position = entries.length := by
      rw [← h.position,HistoryState.position,hindex,Option.getD_none,h.entries]
    rw [HistoryState.next,hindex] at hnext
    cases hnext
    simpa [State.showEntry,hend] using h
  | some i =>
    have hi : i = position := by rw [← h.position,HistoryState.position,hindex,Option.getD_some]
    subst hi
    have hdraft := h.draft (by rw [hindex]; simp)
    have hle := h.position_le
    have hlen := h.ok.history.index i hindex
    rw [HistoryState.next_eq hindex] at hnext
    split_ifs at hnext with hlast
    · cases hnext
      rw [showEntry_some h.ok.buffer (ha.1 _ rfl)]
      rw [h.entries] at hlast
      rw [min_eq_left hlast.le]
      refine ⟨⟨ha.1 _ rfl,ha.2⟩,?_,h.entries,rfl,fun _ => hdraft⟩
      simp [lineAt,h.entries,List.getElem?_eq_getElem hlast]
    · cases hnext
      rw [showEntry_some h.ok.buffer (ha.1 _ rfl)]
      rw [h.entries] at hlast hlen
      rw [min_eq_right (by omega)]
      refine ⟨⟨ha.1 _ rfl,ha.2⟩,?_,h.entries,by simp [HistoryState.position,h.entries],by simp⟩
      rw [lineAt_length]
      exact hdraft

/-- The two bytes of one event, whatever the keyboard state before them. -/
theorem event (h : Navigating entries typed position s) (event : ArrowEvent) {k l : Key}
    (hkeys : [k.scancode,l.scancode] = event.scancodes) :
    ∃ t, s.typeKeys [k,l] = .ok t ∧ Navigating entries typed (event.moved entries.length position) t := by
  have hk : k.scancode = 0xe0 := by cases event <;> exact (List.cons.inj hkeys).1
  have hlead : s.typeKey k = .ok { s with
      keyboard := { s.keyboard with extendedPrefix := true }
      scheduler := k.tasks } := by
    rw [typeKey,hk]
    rfl
  have htwo : s.typeKeys [k,l] = perform l.heapOffset { s with
        keyboard := (KeyboardState.decode { s.keyboard with extendedPrefix := true } l.scancode).2
        scheduler := l.tasks }
      (KeyboardState.decode { s.keyboard with extendedPrefix := true } l.scancode).1 := by
    rw [typeKeys,List.foldlM_cons,hlead]
    simp only [MachineArith.ok_bind,List.foldlM_cons,List.foldlM_nil,bind_pure]
    rfl
  rw [htwo]
  cases event with
  | pressed key =>
    have hl : l.scancode = key.code := (List.cons.inj (List.cons.inj hkeys).2).1
    rw [hl]
    cases key with
    | up => exact (h.withKeyboard _ _).up
    | down => exact (h.withKeyboard _ _).down
  | released key =>
    have hl : l.scancode = 0x80 ||| key.code := (List.cons.inj (List.cons.inj hkeys).2).1
    rw [hl]
    cases key <;> exact ⟨_,rfl,h.withKeyboard _ _⟩

theorem events (h : Navigating entries typed position s) (events : List ArrowEvent) {keys : List Key}
    (hkeys : keys.map Key.scancode = events.flatMap ArrowEvent.scancodes) :
    ∃ t, s.typeKeys keys = .ok t ∧
      Navigating entries typed (events.foldl (ArrowEvent.moved entries.length) position) t := by
  induction events generalizing s position keys with
  | nil =>
    rw [List.flatMap_nil,List.map_eq_nil_iff] at hkeys
    exact ⟨s,by rw [hkeys]; rfl,h⟩
  | cons first events ih =>
    obtain ⟨k,l,rest,rfl,hfirst,hrest⟩ : ∃ k l rest, keys = k::l::rest ∧
        [k.scancode,l.scancode] = first.scancodes ∧
        rest.map Key.scancode = events.flatMap ArrowEvent.scancodes := by
      rw [List.flatMap_cons] at hkeys
      match keys, first with
      | k::l::rest, .pressed key => simpa [ArrowEvent.scancodes,and_assoc] using hkeys
      | k::l::rest, .released key => simpa [ArrowEvent.scancodes,and_assoc] using hkeys
      | [k], .pressed key => simp [ArrowEvent.scancodes] at hkeys
      | [k], .released key => simp [ArrowEvent.scancodes] at hkeys
      | [], .pressed key => simp [ArrowEvent.scancodes] at hkeys
      | [], .released key => simp [ArrowEvent.scancodes] at hkeys
    obtain ⟨u,hu,hnav⟩ := h.event first hfirst
    obtain ⟨t,ht,hend⟩ := ih hnav hrest
    refine ⟨t,?_,hend⟩
    rw [typeKeys] at hu ⊢
    rw [show k::l::rest = [k,l]++rest from rfl,List.foldlM_append,hu]
    exact ht

end Navigating
end State

/-- Arrow keys only: the buffer is what stands at the position the walk has reached, and a walk
back past the end restores the typed line. -/
theorem history_navigation (scheduler : Scheduler.TaskManager) {s : State}
    (hs : Runs.Reachable KeyStep (State.boot scheduler).init s) (hindex : s.history.index = none)
    (events : List ArrowEvent) (keys : List Key)
    (hkeys : keys.map Key.scancode = events.flatMap ArrowEvent.scancodes) :
    ∃ t, s.typeKeys keys = .ok t ∧
      t.inputBuffer = lineAt s.history.entries s.inputBuffer (ArrowEvent.walk s.history.entries.length events) ∧
      (ArrowEvent.walk s.history.entries.length events = s.history.entries.length →
        t.inputBuffer = s.inputBuffer) := by
  have hok : s.Ok := Runs.Reachable.invariant (I := State.Ok) (fun _ _ _ => KeyStep.ok) (.boot scheduler) hs
  obtain ⟨t,ht,hnav⟩ := (State.Navigating.start hok hindex).events events hkeys
  refine ⟨t,ht,hnav.buffer,fun hend => ?_⟩
  have hbuffer : t.inputBuffer =
      lineAt s.history.entries s.inputBuffer (ArrowEvent.walk s.history.entries.length events) := hnav.buffer
  rw [hbuffer,hend,lineAt_length]

/-- The command `a` is recorded and `b` typed: one step back shows `a`, and a walk that meets
both ends comes back to `b`. -/
theorem history_navigation_typed : ∃ s, Runs.Reachable KeyStep (State.boot .new).init s ∧
    s.history.entries = [['a']] ∧ s.inputBuffer = ['b'] ∧
    (∃ t, s.typeKeys [⟨0xe0,0,.new⟩,⟨0x48,0,.new⟩] = .ok t ∧ t.inputBuffer = ['a']) ∧
    ∃ t, s.typeKeys [⟨0xe0,0,.new⟩,⟨0x48,0,.new⟩,⟨0xe0,0,.new⟩,⟨0x48,0,.new⟩,⟨0xe0,0,.new⟩,⟨0xc8,0,.new⟩,
      ⟨0xe0,0,.new⟩,⟨0x50,0,.new⟩,⟨0xe0,0,.new⟩,⟨0x50,0,.new⟩] = .ok t ∧ t.inputBuffer = ['b'] := by
  obtain ⟨s,hrun,hentries,hbuffer,hindex⟩ : ∃ s,
      (State.boot .new).init.typeKeys [⟨0x1e,0,.new⟩,⟨0x1c,0,.new⟩,⟨0x30,0,.new⟩] = .ok s ∧
      s.history.entries = [['a']] ∧ s.inputBuffer = ['b'] ∧ s.history.index = none := ⟨_,rfl,rfl,rfl,rfl⟩
  have hs := State.reachable_of_typeKeys hrun
  obtain ⟨t,ht,hone,-⟩ := history_navigation .new hs hindex [.pressed .up]
    [⟨0xe0,0,.new⟩,⟨0x48,0,.new⟩] rfl
  obtain ⟨u,hu,htwo,-⟩ := history_navigation .new hs hindex
    [.pressed .up,.pressed .up,.released .up,.pressed .down,.pressed .down]
    [⟨0xe0,0,.new⟩,⟨0x48,0,.new⟩,⟨0xe0,0,.new⟩,⟨0x48,0,.new⟩,⟨0xe0,0,.new⟩,⟨0xc8,0,.new⟩,
      ⟨0xe0,0,.new⟩,⟨0x50,0,.new⟩,⟨0xe0,0,.new⟩,⟨0x50,0,.new⟩] rfl
  rw [hentries,hbuffer] at hone htwo
  exact ⟨s,hs,hentries,hbuffer,⟨t,ht,hone⟩,u,hu,htwo⟩

end Shell
end EnosKernel
