import EnosKernel.LineEditorSafety

/-! Typing as a sequence of scancodes.  The decoder alone sets the keyboard state: no command
and no editing touches it, so it is a fold over the scancodes. -/
namespace EnosKernel
namespace Shell

namespace KeyboardState

/-- A prefix is outstanding right behind a byte 0xe0 and nowhere else. -/
theorem decode_extendedPrefix (keyboard : KeyboardState) (scancode : UInt8) :
    (keyboard.decode scancode).2.extendedPrefix = decide (scancode = 0xe0) := by
  by_cases hlead : scancode = 0xe0
  · simp [decode,hlead]
  · unfold decode
    dsimp only
    split_ifs <;> simp_all

def scan (keyboard : KeyboardState) (codes : List UInt8) : KeyboardState :=
  codes.foldl (fun keyboard code => (keyboard.decode code).2) keyboard

@[simp] theorem scan_nil (keyboard : KeyboardState) : keyboard.scan [] = keyboard := rfl

@[simp] theorem scan_cons (keyboard : KeyboardState) (code : UInt8) (codes : List UInt8) :
    keyboard.scan (code::codes) = (keyboard.decode code).2.scan codes := rfl

end KeyboardState

namespace State

variable {s t : State} {heapOffset : ℕ}

theorem showEntry_keyboard (s : State) (answer : Option (List Char) × HistoryState) :
    (s.showEntry answer).keyboard = s.keyboard := by
  obtain ⟨_ | entry,history⟩ := answer
  · rfl
  · simp only [showEntry,replaceInputLine,clearVisibleInput_eq,print]

theorem pushChar_keyboard {c : Char} (h : s.pushChar heapOffset c = .ok t) : t.keyboard = s.keyboard := by
  unfold pushChar at h
  dsimp only at h
  split_ifs at h
  · cases h
    rfl
  · cases h
    rfl
  · exact (Effect.evaluateCommand h).keyboard
  · cases h
    rfl
  · cases h
    rfl

theorem pushChars_keyboard {text : List Char} (h : text.foldlM (pushChar heapOffset) s = .ok t) :
    t.keyboard = s.keyboard := by
  induction text generalizing s with
  | nil =>
    cases h
    rfl
  | cons c text ih =>
    rw [List.foldlM_cons] at h
    obtain ⟨u,hu,hrest⟩ := MachineArith.bind_eq_ok.mp h
    exact (ih hrest).trans (pushChar_keyboard hu)

theorem perform_keyboard {action : Option InputAction} (h : s.perform heapOffset action = .ok t) :
    t.keyboard = s.keyboard := by
  match action with
  | some .backspace => exact pushChar_keyboard h
  | some .enter => exact pushChar_keyboard h
  | some .tab => exact pushChars_keyboard h
  | some .historyUp =>
    obtain ⟨answer,-,hshown⟩ := MachineArith.bind_eq_ok.mp h
    cases hshown
    exact showEntry_keyboard s answer
  | some .historyDown =>
    obtain ⟨answer,-,hshown⟩ := MachineArith.bind_eq_ok.mp h
    cases hshown
    exact showEntry_keyboard s answer
  | some (.char c) => exact pushChar_keyboard h
  | none =>
    cases h
    rfl

theorem processScancode_keyboard {scancode : UInt8} (h : s.processScancode heapOffset scancode = .ok t) :
    t.keyboard = (s.keyboard.decode scancode).2 := perform_keyboard h

def typeKey (s : State) (k : Key) : Except Panic State :=
  processScancode k.heapOffset { s with scheduler := k.tasks } k.scancode

def typeKeys (s : State) (keys : List Key) : Except Panic State := keys.foldlM typeKey s

theorem typeKeys_keyboard {keys : List Key} (h : s.typeKeys keys = .ok t) :
    t.keyboard = s.keyboard.scan (keys.map Key.scancode) := by
  induction keys generalizing s with
  | nil =>
    cases h
    rfl
  | cons k keys ih =>
    rw [typeKeys,List.foldlM_cons] at h
    obtain ⟨u,hu,hrest⟩ := MachineArith.bind_eq_ok.mp h
    rw [ih hrest,processScancode_keyboard hu]
    rfl

theorem reachable_of_typeKeys {keys : List Key} (h : s.typeKeys keys = .ok t) : Runs.Reachable KeyStep s t := by
  obtain ⟨path,hpath,rfl⟩ := Runs.exists_path h
  exact (show Runs.Along KeyStep s path from hpath).reachable

end State
end Shell
end EnosKernel
