import EnosKernel.GuestSafety
import EnosKernel.LineEditor

/-! The invariant of the line editor: the buffer, the history entries and the draft are short
printable lines, whatever keys are typed. -/
namespace EnosKernel
namespace Shell

open RustStr

/-- A printable line that fits the input buffer. -/
structure Line (text : List Char) : Prop where
  printable : Printable text
  short : text.length ≤ maxInputLen

namespace Line

variable {text : List Char}

theorem nil : Line [] := ⟨.nil,Nat.zero_le _⟩

theorem sublist {part : List Char} (h : Line text) (hpart : part.Sublist text) : Line part :=
  ⟨h.printable.sublist hpart,hpart.length_le.trans h.short⟩

theorem push (h : Line text) {c : Char} (hc : Printable [c]) (hroom : len text < maxInputLen) : Line (text++[c]) := by
  rw [h.printable.len_eq] at hroom
  exact ⟨h.printable.append hc,by simpa using hroom⟩

theorem len_le (h : Line text) : len text ≤ maxInputLen := h.printable.len_eq ▸ h.short

end Line

structure Entry (text : List Char) : Prop extends Line text where
  nonempty : text ≠ []
  first : text.head? ≠ some ' '
  last : text.getLast? ≠ some ' '

theorem Entry.trim {text : List Char} (h : Line text) (hne : trim text ≠ []) : Entry (trim text) where
  toLine := h.sublist (trim_sublist text)
  nonempty := hne
  first := fun hspace => absurd (head_trim hspace) (by decide)
  last := fun hspace => absurd (getLast_trim hspace) (by decide)

namespace HistoryState

structure Ok (h : HistoryState) : Prop where
  entries : ∀ entry ∈ h.entries, Entry entry
  draft : Line h.draft
  index : ∀ i, h.index = some i → i < h.entries.length

namespace Ok

variable {h : HistoryState}

theorem new : Ok new := ⟨by simp [HistoryState.new],.nil,by simp [HistoryState.new]⟩

theorem resetNavigation (hok : Ok h) : Ok h.resetNavigation := ⟨hok.entries,.nil,by simp [HistoryState.resetNavigation]⟩

theorem pushEntry {entries : List (List Char)} {command : List Char} (h : ∀ entry ∈ entries, Entry entry)
    (hcommand : Entry command) : ∀ entry ∈ pushEntry entries command, Entry entry := by
  unfold HistoryState.pushEntry
  split_ifs
  · exact h
  all_goals
    intro entry hentry
    rcases List.mem_append.mp hentry with hold | hnew
  · exact h entry (List.mem_of_mem_eraseIdx hold)
  · rwa [List.mem_singleton.mp hnew]
  · exact h entry hold
  · rwa [List.mem_singleton.mp hnew]

theorem record (hok : Ok h) {line : List Char} (hline : Line line) : Ok (h.record (trim line)) := by
  unfold HistoryState.record
  split_ifs with hempty
  · exact hok.resetNavigation
  · exact ⟨pushEntry hok.entries (.trim hline hempty),.nil,by simp [HistoryState.resetNavigation]⟩

def Answer (answer : Option (List Char) × HistoryState) : Prop :=
  (∀ entry, answer.1 = some entry → Line entry) ∧ Ok answer.2

theorem previous (hok : Ok h) {line : List Char} (hline : Line line) :
    ∃ answer, h.previous line = .ok answer ∧ Answer answer := by
  by_cases hempty : h.entries = []
  · exact ⟨(none,h),by rw [HistoryState.previous,if_pos hempty],by simp,hok⟩
  · obtain ⟨entry,hentry,hcall⟩ := previous_eq hok.index hempty line
    refine ⟨_,hcall,?_,hok.entries,?_,?_⟩
    · rintro _ ⟨⟩
      exact (hok.entries entry (List.mem_of_getElem? hentry)).toLine
    · dsimp only
      split_ifs
      · exact hline
      · exact hok.draft
    · rintro i ⟨⟩
      exact (List.getElem?_eq_some_iff.mp hentry).1

theorem next (hok : Ok h) : ∃ answer, h.next = .ok answer ∧ Answer answer := by
  cases hindex : h.index with
  | none => exact ⟨(none,h),by rw [HistoryState.next,hindex],by simp,hok⟩
  | some i =>
    rw [next_eq hindex]
    split_ifs with hlast
    · refine ⟨_,rfl,?_,hok.entries,hok.draft,by simpa using hlast⟩
      rintro _ ⟨⟩
      exact (hok.entries _ (List.getElem_mem hlast)).toLine
    · exact ⟨_,rfl,by simpa using hok.draft,hok.entries,hok.draft,by simp⟩

end Ok
end HistoryState

theorem fillBuffer_eq {buffer text : List Char} (h : Line (buffer++text)) : fillBuffer buffer text = buffer++text := by
  induction text generalizing buffer with
  | nil => simp [fillBuffer]
  | cons c text ih =>
    have hshort := h.short
    have hroom : ¬ maxInputLen ≤ len buffer := by
      rw [(h.printable.sublist (List.sublist_append_left _ _)).len_eq]
      simp only [List.length_append,List.length_cons] at hshort
      omega
    rw [fillBuffer,if_neg hroom,ih (by simpa using h),List.append_assoc,List.singleton_append]

theorem mapLetterBase_printable {code : UInt8} {c : Char} (h : mapLetterBase code = some c) :
    Printable [c] ∧ Printable [c.toUpper] := by
  unfold mapLetterBase at h
  split at h <;> cases h <;> decide

theorem mapNonLetter_printable {code : UInt8} {shifted : Bool} {c : Char} (h : mapNonLetter code shifted = some c) :
    Printable [c] := by
  unfold mapNonLetter at h
  cases shifted <;> split at h <;> cases h <;> decide

theorem mapKey_printable {code : UInt8} {shifted capsLock : Bool} {c : Char}
    (h : mapKey code shifted capsLock = some c) : Printable [c] := by
  unfold mapKey at h
  split at h
  · rename_i base hbase
    obtain ⟨hlower,hupper⟩ := mapLetterBase_printable hbase
    rw [← Option.some.inj h]
    split_ifs
    · exact hupper
    · exact hlower
  · exact mapNonLetter_printable h

/-- The keyboard only ever types printable characters. -/
theorem KeyboardState.decode_printable {keyboard : KeyboardState} {scancode : UInt8} {c : Char}
    (h : (keyboard.decode scancode).1 = some (.char c)) : Printable [c] := by
  unfold decode at h
  dsimp only at h
  split_ifs at h
  all_goals try cases h
  obtain ⟨d,hd,hc⟩ := Option.map_eq_some_iff.mp h
  cases hc
  exact mapKey_printable hd

namespace State

structure Ok (s : State) : Prop where
  buffer : Line s.inputBuffer
  history : s.history.Ok

theorem clearVisibleInput_eq (s : State) (count : ℕ) :
    s.clearVisibleInput count = { s with output := s.output++List.replicate count (.text ['\x08']) } := by
  induction count generalizing s with
  | zero => simp [clearVisibleInput]
  | succ count ih => rw [clearVisibleInput,ih,List.replicate_succ]; simp [print]

/-- What the screen gets when a line is recalled: one backspace for each character typed so
far, and the line. -/
def recalled (s : State) (entry : List Char) : List Output :=
  s.output++List.replicate s.inputBuffer.length (.text ['\x08'])++[.text entry]

theorem showEntry_some {s : State} {entry : List Char} (hbuffer : Line s.inputBuffer) (hentry : Line entry)
    (history : HistoryState) : s.showEntry (some entry,history) =
      { s with history := history, inputBuffer := entry, output := s.recalled entry } := by
  have hfill : fillBuffer [] entry = entry := fillBuffer_eq hentry
  simp only [showEntry,replaceInputLine,clearVisibleInput_eq,hbuffer.printable.len_eq,hfill,print,recalled]

namespace Ok

variable {s t : State}

theorem showEntry (h : s.Ok) {answer : Option (List Char) × HistoryState} (ha : HistoryState.Ok.Answer answer) :
    (s.showEntry answer).Ok := by
  obtain ⟨entry,history⟩ := answer
  cases entry with
  | none => exact ⟨h.buffer,ha.2⟩
  | some entry =>
    have hline := ha.1 entry rfl
    rw [showEntry_some h.buffer hline]
    exact ⟨hline,ha.2⟩

theorem historyUp (h : s.Ok) : ∃ answer, s.history.previous s.inputBuffer = .ok answer ∧
    HistoryState.Ok.Answer answer ∧ s.historyUp = .ok (s.showEntry answer) := by
  obtain ⟨answer,hprevious,ha⟩ := h.history.previous h.buffer
  exact ⟨answer,hprevious,ha,by rw [State.historyUp,hprevious]; rfl⟩

theorem historyDown (h : s.Ok) : ∃ answer, s.history.next = .ok answer ∧
    HistoryState.Ok.Answer answer ∧ s.historyDown = .ok (s.showEntry answer) := by
  obtain ⟨answer,hnext,ha⟩ := h.history.next
  exact ⟨answer,hnext,ha,by rw [State.historyDown,hnext]; rfl⟩

theorem evaluateCommand {heapOffset : ℕ} (h : s.Ok) (ht : evaluateCommand heapOffset s = .ok t) : t.Ok := by
  have heffect := Effect.evaluateCommand ht
  refine ⟨?_,?_⟩
  · rw [heffect.inputBuffer]
    exact .nil
  · rw [heffect.history]
    exact h.history.record h.buffer

theorem pushChar {heapOffset : ℕ} (h : s.Ok) {c : Char} (hc : Printable [c] ∨ c = '\x08' ∨ c = '\n')
    (ht : s.pushChar heapOffset c = .ok t) : t.Ok := by
  unfold State.pushChar at ht
  dsimp only at ht
  split_ifs at ht with hback hempty hline hroom
  · cases ht
    exact ⟨h.buffer,h.history.resetNavigation⟩
  · cases ht
    exact ⟨h.buffer.sublist (List.dropLast_sublist _),h.history.resetNavigation⟩
  · exact evaluateCommand (s := s.print [c]) ⟨h.buffer,h.history⟩ ht
  · cases ht
    have hprintable : Printable [c] := by simpa [hback,hline] using hc
    exact ⟨h.buffer.push hprintable hroom,h.history.resetNavigation⟩
  · cases ht
    exact h

theorem pushChars {heapOffset : ℕ} (h : s.Ok) {text : List Char} (htext : Printable text)
    (ht : text.foldlM (State.pushChar heapOffset) s = .ok t) : t.Ok := by
  induction text generalizing s with
  | nil =>
    cases ht
    exact h
  | cons c text ih =>
    rw [List.foldlM_cons] at ht
    obtain ⟨u,hu,ht⟩ := MachineArith.bind_eq_ok.mp ht
    have hc : Printable [c] := htext.sublist (List.singleton_sublist.mpr List.mem_cons_self)
    exact ih (h.pushChar (.inl hc) hu) (htext.sublist (List.sublist_cons_self c text)) ht

theorem perform {heapOffset : ℕ} (h : s.Ok) {action : Option InputAction}
    (hchar : ∀ c, action = some (.char c) → Printable [c]) (ht : s.perform heapOffset action = .ok t) : t.Ok := by
  match action with
  | some .backspace => exact h.pushChar (.inr (.inl rfl)) ht
  | some .enter => exact h.pushChar (.inr (.inr rfl)) ht
  | some .tab => exact h.pushChars (by decide) ht
  | some .historyUp =>
    obtain ⟨answer,-,ha,hup⟩ := h.historyUp
    cases hup.symm.trans ht
    exact h.showEntry ha
  | some .historyDown =>
    obtain ⟨answer,-,ha,hdown⟩ := h.historyDown
    cases hdown.symm.trans ht
    exact h.showEntry ha
  | some (.char c) => exact h.pushChar (.inl (hchar c rfl)) ht
  | none =>
    cases ht
    exact h

theorem processScancode {heapOffset : ℕ} {scancode : UInt8} (h : s.Ok)
    (ht : s.processScancode heapOffset scancode = .ok t) : t.Ok :=
  perform (s := { s with keyboard := (s.keyboard.decode scancode).2 }) ⟨h.buffer,h.history⟩
    (fun _ hc => KeyboardState.decode_printable hc) ht

theorem boot (scheduler : Scheduler.TaskManager) : (State.boot scheduler).init.Ok := ⟨.nil,.new⟩

end Ok
end State

/-- One scancode, and what the tasks and the heap are when it is processed. -/
structure Key where
  scancode : UInt8
  heapOffset : ℕ
  tasks : Scheduler.TaskManager

def KeyStep (s : State) (k : Key) (t : State) : Prop :=
  State.processScancode k.heapOffset { s with scheduler := k.tasks } k.scancode = .ok t

theorem KeyStep.ok {s t : State} {k : Key} (hs : s.Ok) (h : KeyStep s k t) : t.Ok :=
  State.Ok.processScancode (s := { s with scheduler := k.tasks }) ⟨hs.buffer,hs.history⟩ h

/-- Whatever keys were typed since boot, the input buffer, the history and the draft hold short
printable lines, the history keys never panic, and a recalled line is neither cut nor
preceded by too many or too few backspaces. -/
theorem line_editor_invariant (scheduler : Scheduler.TaskManager) {s : State}
    (h : Runs.Reachable KeyStep (State.boot scheduler).init s) :
    (len s.inputBuffer ≤ 256 ∧ ∀ b ∈ bytes s.inputBuffer, 0x20 ≤ b ∧ b ≤ 0x7e) ∧
    (∀ entry ∈ s.history.entries, entry ≠ [] ∧ len entry ≤ 256 ∧ (∀ b ∈ bytes entry, 0x20 ≤ b ∧ b ≤ 0x7e) ∧
      entry.head? ≠ some ' ' ∧ entry.getLast? ≠ some ' ') ∧
    (len s.history.draft ≤ 256 ∧ ∀ b ∈ bytes s.history.draft, 0x20 ≤ b ∧ b ≤ 0x7e) ∧
    (∃ answer, s.history.previous s.inputBuffer = .ok answer ∧ s.historyUp = .ok (s.showEntry answer) ∧
      ∀ entry, answer.1 = some entry → (s.showEntry answer).inputBuffer = entry ∧
        (s.showEntry answer).output = s.recalled entry) ∧
    (∃ answer, s.history.next = .ok answer ∧ s.historyDown = .ok (s.showEntry answer) ∧
      ∀ entry, answer.1 = some entry → (s.showEntry answer).inputBuffer = entry ∧
        (s.showEntry answer).output = s.recalled entry) := by
  have hok : s.Ok := Runs.Reachable.invariant (I := State.Ok) (fun _ _ _ => KeyStep.ok) (.boot scheduler) h
  have hshown : ∀ answer, HistoryState.Ok.Answer answer → ∀ entry, answer.1 = some entry →
      (s.showEntry answer).inputBuffer = entry ∧ (s.showEntry answer).output = s.recalled entry := by
    rintro ⟨_,history⟩ ha entry rfl
    rw [State.showEntry_some hok.buffer (ha.1 entry rfl)]
    exact ⟨rfl,rfl⟩
  obtain ⟨previous,hprevious,hpreviousOk,hup⟩ := hok.historyUp
  obtain ⟨next,hnext,hnextOk,hdown⟩ := hok.historyDown
  refine ⟨⟨hok.buffer.len_le,fun _ => hok.buffer.printable.byte_mem⟩,?_,
    ⟨hok.history.draft.len_le,fun _ => hok.history.draft.printable.byte_mem⟩,
    ⟨previous,hprevious,hup,hshown previous hpreviousOk⟩,⟨next,hnext,hdown,hshown next hnextOk⟩⟩
  intro entry hentry
  have he := hok.history.entries entry hentry
  exact ⟨he.nonempty,he.len_le,fun _ => he.printable.byte_mem,he.first,he.last⟩

/-- After the first key, `a`. -/
theorem line_editor_invariant_firstKey : ∃ s, KeyStep (State.boot .new).init ⟨0x1e,0,.new⟩ s ∧
    s.inputBuffer = ['a'] ∧ len s.inputBuffer ≤ 256 ∧ (∀ b ∈ bytes s.inputBuffer, 0x20 ≤ b ∧ b ≤ 0x7e) ∧
    s.historyUp = .ok s := by
  have hstep : KeyStep (State.boot .new).init ⟨0x1e,0,.new⟩
      { (State.boot .new).init with
        inputBuffer := ['a'], output := (State.boot .new).init.output++[.text ['a']] } := rfl
  obtain ⟨⟨hlen,hbytes⟩,-,-,-,-⟩ := line_editor_invariant .new (.single ⟨_,hstep⟩)
  exact ⟨_,hstep,rfl,hlen,hbytes,rfl⟩

end Shell
end EnosKernel
