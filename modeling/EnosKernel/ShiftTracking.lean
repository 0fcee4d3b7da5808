import EnosKernel.KeyDecoding

/-! The shift keys.  There are two of them and one flag in the keyboard state: the flag follows
the last event of either key. -/
namespace EnosKernel
namespace Shell

inductive ShiftKey
  | left | right
  deriving DecidableEq, Repr

structure ShiftEvent where
  key : ShiftKey
  pressed : Bool
  deriving DecidableEq, Repr

def shiftEvent (code : UInt8) : Option ShiftEvent :=
  if code = 0x2a then some ⟨.left,true⟩
  else if code = 0xaa then some ⟨.left,false⟩
  else if code = 0x36 then some ⟨.right,true⟩
  else if code = 0xb6 then some ⟨.right,false⟩
  else none

/-- The codes that do not stand behind a byte 0xe0. -/
def unprefixed : Bool → List UInt8 → List UInt8
  | _, [] => []
  | behindLead, code::codes =>
    if code = 0xe0 then unprefixed true codes
    else if behindLead then unprefixed false codes
    else code::unprefixed false codes

def shiftEvents (behindLead : Bool) (codes : List UInt8) : List ShiftEvent :=
  (unprefixed behindLead codes).filterMap shiftEvent

@[simp] theorem shiftEvents_lead (behindLead : Bool) (codes : List UInt8) :
    shiftEvents behindLead (0xe0::codes) = shiftEvents true codes := by simp [shiftEvents,unprefixed]

theorem shiftEvents_second {code : UInt8} (h : code ≠ 0xe0) (codes : List UInt8) :
    shiftEvents true (code::codes) = shiftEvents false codes := by simp [shiftEvents,unprefixed,h]

theorem shiftEvents_plain {code : UInt8} (h : code ≠ 0xe0) (codes : List UInt8) :
    shiftEvents false (code::codes) = (shiftEvent code).toList++shiftEvents false codes := by
  cases hevent : shiftEvent code <;> simp [shiftEvents,unprefixed,h,hevent]

/-- The key's last event was a make. -/
def Held (key : ShiftKey) (events : List ShiftEvent) : Prop :=
  (events.filter (·.key = key)).getLast? = some ⟨key,true⟩

instance (key : ShiftKey) (events : List ShiftEvent) : Decidable (Held key events) :=
  inferInstanceAs (Decidable (_ = _))

/-- A key is only released while it is held. -/
def InOrder (events : List ShiftEvent) : Prop :=
  ∀ i, ∀ hi : i < events.length, events[i].pressed = false → Held events[i].key (events.take i)

instance (events : List ShiftEvent) : Decidable (InOrder events) :=
  inferInstanceAs (Decidable (∀ i, ∀ _ : i < events.length, _))

theorem shiftEvent_eq (code : UInt8) : shiftEvent code =
    if code &&& 0x7f = 0x2a then some ⟨.left,code &&& 0x80 = 0⟩
    else if code &&& 0x7f = 0x36 then some ⟨.right,code &&& 0x80 = 0⟩
    else none := by
  have hall : ∀ n : Fin 256, shiftEvent (UInt8.ofFin n) =
      if UInt8.ofFin n &&& 0x7f = 0x2a then some ⟨.left,UInt8.ofFin n &&& 0x80 = 0⟩
      else if UInt8.ofFin n &&& 0x7f = 0x36 then some ⟨.right,UInt8.ofFin n &&& 0x80 = 0⟩
      else none := by decide +kernel
  simpa using hall code.toFin

namespace KeyboardState

theorem decode_shiftPressed (keyboard : KeyboardState) (code : UInt8) :
    (keyboard.decode code).2.shiftPressed =
      if code = 0xe0 ∨ keyboard.extendedPrefix then keyboard.shiftPressed
      else ((shiftEvent code).map ShiftEvent.pressed).getD keyboard.shiftPressed := by
  rw [shiftEvent_eq]
  unfold decode
  dsimp only
  split_ifs <;> simp_all

theorem scan_shiftPressed (keyboard : KeyboardState) (codes : List UInt8) :
    (keyboard.scan codes).shiftPressed =
      ((shiftEvents keyboard.extendedPrefix codes).getLast?.map ShiftEvent.pressed).getD keyboard.shiftPressed := by
  induction codes generalizing keyboard with
  | nil => rfl
  | cons code codes ih =>
    rw [scan_cons,ih,decode_extendedPrefix,decode_shiftPressed]
    by_cases hlead : code = 0xe0
    · simp [hlead]
    · cases hprefix : keyboard.extendedPrefix with
      | true => simp [hlead,shiftEvents_second hlead]
      | false =>
        rw [shiftEvents_plain hlead]
        cases hevent : shiftEvent code with
        | none => simp [hlead]
        -- a later event decides, and without one the flag that this code leaves
        | some event => cases hlast : (shiftEvents false codes).getLast? <;> simp [hlead,List.getLast?_cons,hlast]

end KeyboardState

section Events

variable {key : ShiftKey} {events : List ShiftEvent} {last : ShiftEvent}

theorem not_held_nil : ¬ Held key [] := by simp [Held]

theorem held_concat_self : Held last.key (events++[last]) ↔ last.pressed := by
  obtain ⟨key,pressed⟩ := last
  simp [Held]

/-- The last shift event is a break, and another shift key is down. -/
def ReleasedUnderOther (events : List ShiftEvent) : Prop :=
  ∃ last, events.getLast? = some last ∧ last.pressed = false ∧ ∃ key ≠ last.key, Held key events

/-- The last event tells whether a key is held, unless it is a break under another held key. -/
theorem last_pressed_iff (events : List ShiftEvent) :
    ((events.getLast?.map ShiftEvent.pressed).getD false = true ↔ ∃ key, Held key events) ↔
      ¬ ReleasedUnderOther events := by
  cases events using List.reverseRecOn with
  | nil => simp [ReleasedUnderOther,not_held_nil]
  | append_singleton events last =>
    simp only [ReleasedUnderOther,List.getLast?_concat,Option.map_some,Option.getD_some,Option.some.injEq,
      exists_eq_left']
    cases hpressed : last.pressed with
    | true =>
      have hheld : Held last.key (events++[last]) := held_concat_self.mpr hpressed
      simpa using ⟨last.key,hheld⟩
    | false =>
      have hfree : ¬ Held last.key (events++[last]) := by simp [held_concat_self,hpressed]
      have hother : (∃ key, Held key (events++[last])) ↔ ∃ key ≠ last.key, Held key (events++[last]) := by
        refine ⟨?_,fun ⟨key,_,hheld⟩ => ⟨key,hheld⟩⟩
        rintro ⟨key,hheld⟩
        refine ⟨key,?_,hheld⟩
        rintro rfl
        exact hfree hheld
      simp [hother]

end Events

/-- However the keys were typed, the flag agrees with the keys held exactly if the last shift
event is not a break under the other key. -/
theorem shift_tracking_iff {s t : State} (hs : s.keyboard = ⟨false,false,false⟩) {keys : List Key}
    (h : s.typeKeys keys = .ok t) :
    (t.keyboard.shiftPressed = true ↔ ∃ key, Held key (shiftEvents false (keys.map Key.scancode))) ↔
      ¬ ReleasedUnderOther (shiftEvents false (keys.map Key.scancode)) := by
  rw [State.typeKeys_keyboard h,KeyboardState.scan_shiftPressed,hs]
  exact last_pressed_iff _

/-- The left key repeats after the right one was released. -/
theorem shift_tracking_repeated : ∃ t,
    (State.boot .new).init.typeKeys [⟨0x2a,0,.new⟩,⟨0x36,0,.new⟩,⟨0xb6,0,.new⟩,⟨0x2a,0,.new⟩] = .ok t ∧
    (t.keyboard.shiftPressed = true ↔ ∃ key, Held key (shiftEvents false [0x2a,0x36,0xb6,0x2a])) := by
  obtain ⟨t,ht⟩ : ∃ t, (State.boot .new).init.typeKeys
      [⟨0x2a,0,.new⟩,⟨0x36,0,.new⟩,⟨0xb6,0,.new⟩,⟨0x2a,0,.new⟩] = .ok t := ⟨_,rfl⟩
  refine ⟨t,ht,(shift_tracking_iff rfl ht).mpr ?_⟩
  rintro ⟨last,hlast,hpressed,-⟩
  cases hlast
  cases hpressed

/-- Both keys are pressed and the right one is released: the left one is still held. -/
theorem shift_forgotten : ∃ t,
    (State.boot .new).init.typeKeys [⟨0x2a,0,.new⟩,⟨0x36,0,.new⟩,⟨0xb6,0,.new⟩] = .ok t ∧
    InOrder (shiftEvents false [0x2a,0x36,0xb6]) ∧ Held .left (shiftEvents false [0x2a,0x36,0xb6]) ∧
    t.keyboard.shiftPressed = false :=
  ⟨_,rfl,by decide,by decide,rfl⟩

end Shell
end EnosKernel
