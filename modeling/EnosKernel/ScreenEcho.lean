import EnosKernel.LineEditorSafety
import EnosKernel.VgaScreen

/-! The input line on the screen.  While a line is typed, every key takes back some characters
and prints others, in the buffer and on the screen alike; the screen's backspace stops at
the start of the bottom row, and there the two part for good. -/
namespace EnosKernel
namespace Shell

open RustStr Vga TextWrap

/-- How often `new_line` runs when a byte is written. -/
def scrollsAt (w : Writer) (byte : UInt8) : ℕ :=
  if byte = 0x08 then 0 else if byte = 0x0a ∨ bufferWidth ≤ w.columnPosition then 1 else 0

def scrolls : Writer → List UInt8 → ℕ
  | _, [] => 0
  | w, byte::rest =>
    scrollsAt w byte+match w.putByte byte with
      | .ok next => scrolls next rest
      | .error _ => 0

/-- What the writer makes of one piece of output, with the rows scrolled so far. -/
def showOutput : Writer × ℕ → Output → Except Panic (Writer × ℕ)
  | (w,scrolled), .text text => do
    let next ← w.writeString text
    .ok (next,scrolled+scrolls w (bytes text))
  | (w,scrolled), .clearScreen => do
    let next ← w.clearScreen
    .ok (next,scrolled)

/-- The shell and its screen, and the number of rows scrolled since the prompt. -/
structure Console where
  shell : State
  screen : Writer
  scrolled : ℕ

def rowChars (b : Buffer) (row : ℕ) : List UInt8 :=
  (List.range bufferWidth).map fun col => (b.cell row col).asciiCharacter

/-- The characters from the end of the prompt to the writer's position, row by row; none when
the prompt has left the screen. -/
def displayed (w : Writer) (scrolled promptLen : ℕ) : Option (List UInt8) :=
  if bufferHeight ≤ scrolled then none
  else some ((((List.range scrolled).flatMap fun k => rowChars w.buffer (bufferHeight-1-scrolled+k))++
    (rowChars w.buffer (bufferHeight-1)).take w.columnPosition).drop promptLen)

def Console.Echoes (promptLen : ℕ) (c : Console) : Prop :=
  displayed c.screen c.scrolled promptLen = some (bytes c.shell.inputBuffer)

/-- One key other than Enter; nothing else is printed. -/
def TypingStep (c : Console) (k : Key) (d : Console) : Prop :=
  (c.shell.keyboard.decode k.scancode).1 ≠ some .enter ∧
  KeyStep { c.shell with output := [] } k d.shell ∧
  d.shell.output.foldlM showOutput (c.screen,c.scrolled) = .ok (d.screen,d.scrolled)

/-- The number of characters that a key takes back. -/
def State.erased (s : State) : Option InputAction → ℕ
  | some .backspace => min 1 s.inputBuffer.length
  | some .historyUp =>
    match s.history.previous s.inputBuffer with
    | .ok (some _,_) => s.inputBuffer.length
    | _ => 0
  | some .historyDown =>
    match s.history.next with
    | .ok (some _,_) => s.inputBuffer.length
    | _ => 0
  | _ => 0

/-- The characters that the key takes back all stand in the bottom row. -/
def Console.ErasesInRow (c : Console) (k : Key) : Prop :=
  c.shell.erased (c.shell.keyboard.decode k.scancode).1 ≤ c.screen.columnPosition

section Screen

variable {w : Writer} {p : Roll UInt8}

theorem take_rowChars (h : Covers w p) {i : ℕ} (hi : i < bufferHeight) :
    (rowChars w.buffer i).take (p.fromBottom (bufferHeight-1-i)).length = p.fromBottom (bufferHeight-1-i) := by
  have hwidth := h.fits.fromBottom (bufferHeight-1-i)
  apply List.ext_getElem
  · simpa [rowChars] using hwidth
  · intro j hleft hright
    have hcell := h.screen i hi j _ (List.getElem?_eq_getElem hright)
    simpa [rowChars] using hcell

theorem displayed_eq (h : Covers w p) {text : List UInt8} (hholds : p.Holds bufferWidth text)
    (hscreen : p.above.length < bufferHeight) (promptLen : ℕ) :
    displayed w p.above.length promptLen = some (text.drop promptLen) := by
  have hbottom := take_rowChars h (show bufferHeight-1 < bufferHeight by decide)
  rw [Nat.sub_self,Roll.fromBottom_zero,← h.column] at hbottom
  have habove : ((List.range p.above.length).map fun k => rowChars w.buffer (bufferHeight-1-p.above.length+k)) =
      p.above := by
    apply List.ext_getElem
    · simp
    · intro k hleft hright
      have hrow : p.fromBottom (bufferHeight-1-(bufferHeight-1-p.above.length+k)) = p.above[k] := by
        rw [show bufferHeight-1-(bufferHeight-1-p.above.length+k) = p.above.length-1-k+1 by omega,
          Roll.fromBottom_succ,List.getElem?_reverse (by omega),
          show p.above.length-1-(p.above.length-1-k) = k by omega,List.getElem?_eq_getElem hright]
        rfl
      have htake := take_rowChars h (show bufferHeight-1-p.above.length+k < bufferHeight by omega)
      rw [hrow,hholds.full _ (List.getElem_mem hright)] at htake
      have hall : (rowChars w.buffer (bufferHeight-1-p.above.length+k)).take bufferWidth =
          rowChars w.buffer (bufferHeight-1-p.above.length+k) :=
        List.take_of_length_le (by simp [rowChars])
      rw [List.getElem_map,List.getElem_range,← hall,htake]
  rw [displayed,if_neg (by omega),List.flatMap_def,habove,hbottom,hholds.text]

theorem scrollsAt_eq (h : Covers w p) (byte : UInt8) :
    (feed p byte).above.length = p.above.length+scrollsAt w byte := by
  simp only [feed,scrollsAt,Roll.write,Roll.put,glyph_eq_newline_iff,h.column]
  by_cases hback : byte = 0x08
  · simp [hback,Roll.erase]
  · by_cases hline : byte = 0x0a
    · simp [hline,Roll.newLine]
    · by_cases hfull : bufferWidth ≤ p.current.length <;> simp [hback,hline,hfull]

theorem scrolls_eq (h : Covers w p) (text : List UInt8) :
    (text.foldl feed p).above.length = p.above.length+scrolls w text := by
  induction text generalizing w p with
  | nil => rfl
  | cons byte text ih =>
    obtain ⟨next,hput,hnext⟩ := Covers.follows.putByte h byte
    rw [List.foldl_cons,ih hnext,scrollsAt_eq h,scrolls,hput]
    exact Nat.add_assoc _ _ _

theorem showOutputs_ok (h : Covers w p) (texts : List (List Char)) : ∃ next,
    (texts.map Output.text).foldlM showOutput (w,p.above.length) =
      .ok (next,((bytes texts.flatten).foldl feed p).above.length) ∧
    Covers next ((bytes texts.flatten).foldl feed p) := by
  induction texts generalizing w p with
  | nil => exact ⟨w,rfl,h⟩
  | cons text texts ih =>
    obtain ⟨first,hwrite,hfirst⟩ := Covers.follows.writeString h text
    obtain ⟨next,hrest,hnext⟩ := ih hfirst
    rw [List.flatten_cons,bytes_append,List.foldl_append]
    refine ⟨next,?_,hnext⟩
    rw [List.map_cons,List.foldlM_cons,showOutput,hwrite,MachineArith.ok_bind,MachineArith.ok_bind,← scrolls_eq h]
    exact hrest

theorem feed_printable {text : List Char} (h : Printable text) (p : Roll UInt8) :
    (bytes text).foldl feed p = (bytes text).foldl (Roll.put bufferWidth) p := by
  have hbytes : ∀ byte ∈ bytes text, ∀ p, feed p byte = Roll.put bufferWidth p byte := by
    intro byte hbyte p
    have hrange := h.byte_mem hbyte
    have hback : byte ≠ 0x08 := by rintro rfl; exact absurd hrange.1 (by decide)
    have hline : byte ≠ 0x0a := by rintro rfl; exact absurd hrange.1 (by decide)
    rw [feed,if_neg hback,glyph,if_pos (.inl hrange),Roll.write,if_neg hline]
  exact List.foldl_ext _ _ _ fun p byte hbyte => hbytes byte hbyte p

theorem feed_backspaces (n : ℕ) (p : Roll UInt8) :
    (bytes (List.replicate n '\x08')).foldl feed p = Roll.erase^[n] p := by
  induction n generalizing p with
  | zero => rfl
  | succ n ih =>
    rw [List.replicate_succ,bytes_cons,List.foldl_append,ih,Function.iterate_succ_apply]
    rfl

end Screen

/-- A key takes back the last `n` characters of the buffer and adds others, and prints just
that. -/
structure Edit (n : ℕ) (s t : State) (texts : List (List Char)) (added : List Char) : Prop where
  output : t.output = s.output++texts.map .text
  printed : texts.flatten = List.replicate n '\x08'++added
  printable : Printable added
  inputBuffer : t.inputBuffer = s.inputBuffer.take (s.inputBuffer.length-n)++added

def Edits (n : ℕ) (s t : State) : Prop := ∃ texts added, Edit n s t texts added

namespace Edits

variable {s t u : State}

theorem none (houtput : t.output = s.output) (hbuffer : t.inputBuffer = s.inputBuffer) : Edits 0 s t :=
  ⟨[],[],by simp [houtput],rfl,.nil,by simp [hbuffer]⟩

theorem trans (h : Edits 0 s t) (h' : Edits 0 t u) : Edits 0 s u := by
  obtain ⟨texts,added,h⟩ := h
  obtain ⟨texts',added',h'⟩ := h'
  have hprinted := h.printed
  have hprinted' := h'.printed
  refine ⟨texts++texts',added++added',?_,?_,h.printable.append h'.printable,?_⟩
  · simp [h'.output,h.output]
  · simpa using congrArg₂ (·++·) hprinted hprinted'
  · rw [h'.inputBuffer,Nat.sub_zero,List.take_length,h.inputBuffer,List.append_assoc]

theorem pushChar (heapOffset : ℕ) (s : State) {c : Char} (hc : Printable [c]) :
    ∃ t, s.pushChar heapOffset c = .ok t ∧ Edits 0 s t := by
  have hrange := hc c (by simp)
  have hback : c ≠ '\x08' := by rintro rfl; exact absurd hrange.1 (by decide)
  have hline : c ≠ '\n' := by rintro rfl; exact absurd hrange.1 (by decide)
  rw [State.pushChar,if_neg hback,if_neg hline]
  split_ifs
  · refine ⟨_,rfl,[[c]],[c],rfl,by simp,hc,?_⟩
    simp [State.print,State.resetHistory]
  · exact ⟨s,rfl,none rfl rfl⟩

theorem pushChars (heapOffset : ℕ) (s : State) {text : List Char} (htext : Printable text) :
    ∃ t, text.foldlM (State.pushChar heapOffset) s = .ok t ∧ Edits 0 s t := by
  induction text generalizing s with
  | nil => exact ⟨s,rfl,none rfl rfl⟩
  | cons c text ih =>
    obtain ⟨u,hu,hfirst⟩ := pushChar heapOffset s
      (htext.sublist (List.singleton_sublist.mpr (List.mem_cons_self (a := c) (l := text))))
    obtain ⟨t,ht,hrest⟩ := ih u (htext.sublist (List.sublist_cons_self c text))
    exact ⟨t,by rw [List.foldlM_cons,hu]; exact ht,hfirst.trans hrest⟩

theorem backspace (heapOffset : ℕ) (s : State) :
    ∃ t, s.pushChar heapOffset '\x08' = .ok t ∧ Edits (min 1 s.inputBuffer.length) s t := by
  rw [State.pushChar,if_pos rfl]
  by_cases hempty : s.inputBuffer = []
  · refine ⟨s.resetHistory,if_pos hempty,?_⟩
    rw [hempty]
    exact none rfl rfl
  · have hpos := List.length_pos_iff.mpr hempty
    refine ⟨_,if_neg hempty,[['\x08']],[],rfl,?_,.nil,?_⟩
    · rw [min_eq_left hpos]
      rfl
    · rw [min_eq_left hpos]
      simp [State.print,State.resetHistory,List.dropLast_eq_take]

theorem showEntry (h : s.Ok) {answer : Option (List Char) × HistoryState} (ha : HistoryState.Ok.Answer answer) :
    Edits (if answer.1.isSome then s.inputBuffer.length else 0) s (s.showEntry answer) := by
  obtain ⟨entry,history⟩ := answer
  cases entry with
  | none => exact none rfl rfl
  | some entry =>
    have hline := ha.1 entry rfl
    rw [State.showEntry_some h.buffer hline]
    refine ⟨List.replicate s.inputBuffer.length ['\x08']++[entry],entry,?_,?_,hline.printable,?_⟩
    · simp [State.recalled]
    · simp
    · simp

end Edits

theorem State.Ok.perform_edits {s : State} (h : s.Ok) (heapOffset : ℕ) {action : Option InputAction}
    (henter : action ≠ some .enter) (hchar : ∀ c, action = some (.char c) → Printable [c]) :
    ∃ t, s.perform heapOffset action = .ok t ∧ Edits (s.erased action) s t := by
  match action with
  | some .backspace => exact Edits.backspace heapOffset s
  | some .enter => exact absurd rfl henter
  | some .tab => exact Edits.pushChars heapOffset s (by decide)
  | some .historyUp =>
    obtain ⟨⟨entry,history⟩,hprevious,ha,hup⟩ := h.historyUp
    have hedits := Edits.showEntry h ha
    refine ⟨_,hup,?_⟩
    rw [State.erased,hprevious]
    cases entry <;> exact hedits
  | some .historyDown =>
    obtain ⟨⟨entry,history⟩,hnext,ha,hdown⟩ := h.historyDown
    have hedits := Edits.showEntry h ha
    refine ⟨_,hdown,?_⟩
    rw [State.erased,hnext]
    cases entry <;> exact hedits
  | some (.char c) => exact Edits.pushChar heapOffset s (hchar c rfl)
  | none => exact ⟨s,rfl,.none rfl rfl⟩

theorem State.erased_le (s : State) (action : Option InputAction) : s.erased action ≤ s.inputBuffer.length := by
  unfold State.erased
  split
  · exact min_le_right _ _
  · split <;> simp
  · split <;> simp
  · exact Nat.zero_le _

theorem keyStep_edits {s : State} (h : s.Ok) (k : Key) (henter : (s.keyboard.decode k.scancode).1 ≠ some .enter) :
    ∃ t, KeyStep s k t ∧ Edits (s.erased (s.keyboard.decode k.scancode).1) s t := by
  let ready := { s with scheduler := k.tasks, keyboard := (s.keyboard.decode k.scancode).2 }
  have hready : ready.Ok := ⟨h.buffer,h.history⟩
  obtain ⟨t,ht,texts,added,hedit⟩ := hready.perform_edits k.heapOffset henter
    fun _ hc => KeyboardState.decode_printable hc
  -- neither the tasks nor the keyboard matter for what is taken back
  have herased : ∀ action, ready.erased action = s.erased action := by
    intro action
    unfold State.erased
    rfl
  rw [herased] at hedit
  exact ⟨t,ht,texts,added,hedit.output,hedit.printed,hedit.printable,hedit.inputBuffer⟩

/-- The invariant of typing: the roll since the prompt holds the prompt and what is displayed,
and that is the input buffer or longer than it. -/
structure Typing (prompt : List UInt8) (c : Console) (p : Roll UInt8) (shown : List UInt8) : Prop where
  editor : c.shell.Ok
  covers : Covers c.screen p
  scrolled : c.scrolled = p.above.length
  holds : p.Holds bufferWidth (prompt++shown)
  apart : shown = bytes c.shell.inputBuffer ∨ c.shell.inputBuffer.length < shown.length

namespace Typing

variable {prompt : List UInt8} {c d : Console} {p : Roll UInt8} {shown : List UInt8}

theorem length_eq (h : Typing prompt c p shown) (hshown : shown = bytes c.shell.inputBuffer) :
    shown.length = c.shell.inputBuffer.length := by
  rw [hshown]
  exact h.editor.buffer.printable.len_eq

theorem length_le (h : Typing prompt c p shown) : c.shell.inputBuffer.length ≤ shown.length := by
  rcases h.apart with hshown | hlonger
  · exact (h.length_eq hshown).ge
  · exact hlonger.le

/-- A prompt that has left the screen leaves more behind than the buffer can hold. -/
theorem echoes_iff (h : Typing prompt c p shown) (hprompt : prompt.length ≤ bufferWidth) :
    c.Echoes prompt.length ↔ shown = bytes c.shell.inputBuffer := by
  unfold Console.Echoes
  rw [h.scrolled]
  by_cases hscreen : p.above.length < bufferHeight
  · rw [displayed_eq h.covers h.holds hscreen,List.drop_left]
    exact Option.some_inj
  · rw [displayed,if_pos (by omega)]
    refine iff_of_false (by simp) ?_
    intro hshown
    have hlength := h.length_eq hshown
    have hrows := h.holds.length_ge
    have hshort := h.editor.buffer.short
    have hbound : bufferHeight*bufferWidth ≤ p.above.length*bufferWidth :=
      Nat.mul_le_mul_right _ (Nat.le_of_not_lt hscreen)
    simp only [List.length_append,maxInputLen] at hrows hshort
    simp only [bufferHeight,bufferWidth] at hbound hrows hprompt
    omega

theorem edit (h : Typing prompt c p shown) {n : ℕ} {texts : List (List Char)} {added : List Char}
    (hn : n ≤ c.shell.inputBuffer.length) (hprinted : texts.flatten = List.replicate n '\x08'++added)
    (hadded : Printable added) :
    ((bytes texts.flatten).foldl feed p).Holds bufferWidth
      (prompt++(shown.take (shown.length-min n c.screen.columnPosition)++bytes added)) := by
  have hlength := h.length_le
  rw [hprinted,bytes_append,List.foldl_append,feed_backspaces,feed_printable hadded]
  have hholds := ((h.holds.erases n).puts (show 0 < bufferWidth by decide) (bytes added))
  rw [← h.covers.column,List.length_append,
    show prompt.length+shown.length-min n c.screen.columnPosition =
      prompt.length+(shown.length-min n c.screen.columnPosition) by omega,
    List.take_length_add_append,List.append_assoc] at hholds
  exact hholds

/-- Taking back within the bottom row keeps screen and buffer equal; otherwise the screen is
longer afterwards. -/
theorem apart_step (h : Typing prompt c p shown) {n : ℕ} {t : State} {texts : List (List Char)}
    {added : List Char} (hn : n ≤ c.shell.inputBuffer.length)
    (hedit : Edit n { c.shell with output := [] } t texts added) :
    (shown = bytes c.shell.inputBuffer ∧ n ≤ c.screen.columnPosition ∧
      shown.take (shown.length-min n c.screen.columnPosition)++bytes added = bytes t.inputBuffer) ∨
    (¬ (shown = bytes c.shell.inputBuffer ∧ n ≤ c.screen.columnPosition) ∧
      t.inputBuffer.length < (shown.take (shown.length-min n c.screen.columnPosition)++bytes added).length) := by
  have hbuffer : t.inputBuffer = c.shell.inputBuffer.take (c.shell.inputBuffer.length-n)++added := hedit.inputBuffer
  have hprintable := h.editor.buffer.printable
  have hbytes : (bytes c.shell.inputBuffer).length = c.shell.inputBuffer.length := hprintable.len_eq
  have hadded : (bytes added).length = added.length := hedit.printable.len_eq
  by_cases hboth : shown = bytes c.shell.inputBuffer ∧ n ≤ c.screen.columnPosition
  · obtain ⟨hshown,hrow⟩ := hboth
    refine .inl ⟨hshown,hrow,?_⟩
    rw [hbuffer,bytes_append,hprintable.bytes_take,hshown,hbytes,min_eq_left hrow]
  · refine .inr ⟨hboth,?_⟩
    have hlength := h.length_le
    have hmore : shown = bytes c.shell.inputBuffer → c.screen.columnPosition < n := by
      intro hshown
      exact Nat.lt_of_not_le fun hrow => hboth ⟨hshown,hrow⟩
    rw [hbuffer]
    simp only [List.length_append,List.length_take,hadded]
    rcases h.apart with hshown | hlonger
    · have hover := hmore hshown
      omega
    · omega

/-- One key: the run goes on, and the screen shows the buffer afterwards exactly when it did so
before and nothing is taken back beyond the bottom row. -/
theorem step (h : Typing prompt c p shown) {k : Key} (hstep : TypingStep c k d) :
    ∃ q next, Typing prompt d q next ∧
      (next = bytes d.shell.inputBuffer ↔ shown = bytes c.shell.inputBuffer ∧ c.ErasesInRow k) := by
  obtain ⟨henter,hkey,hshow⟩ := hstep
  have hok : ({ c.shell with output := [] } : State).Ok := ⟨h.editor.buffer,h.editor.history⟩
  obtain ⟨t,ht,texts,added,hedit⟩ := keyStep_edits hok k henter
  obtain rfl : t = d.shell := Except.ok.inj (ht.symm.trans hkey)
  have hn := State.erased_le { c.shell with output := [] } (c.shell.keyboard.decode k.scancode).1
  obtain ⟨w,hwrites,hcovers⟩ := showOutputs_ok h.covers texts
  have houtput : d.shell.output = texts.map Output.text := hedit.output
  rw [houtput,h.scrolled] at hshow
  obtain ⟨hscreen,hscrolled⟩ := Prod.mk.inj (Except.ok.inj (hwrites.symm.trans hshow))
  rw [hscreen] at hcovers
  have hapart := h.apart_step hn hedit
  have heditor : d.shell.Ok := hkey.ok hok
  have hholds := h.edit hn hedit.printed hedit.printable
  rcases hapart with ⟨hbefore,hrow,hsame⟩ | ⟨hnot,hlonger⟩
  · exact ⟨_,_,⟨heditor,hcovers,hscrolled.symm,hholds,.inl hsame⟩,iff_of_true hsame ⟨hbefore,hrow⟩⟩
  · have hnext : Typing prompt d _ _ := ⟨heditor,hcovers,hscrolled.symm,hholds,.inr hlonger⟩
    refine ⟨_,_,hnext,iff_of_false ?_ hnot⟩
    exact fun hsame => hlonger.ne (hnext.length_eq hsame).symm

theorem progress (h : Typing prompt c p shown) {k : Key}
    (henter : (c.shell.keyboard.decode k.scancode).1 ≠ some .enter) : ∃ d, TypingStep c k d := by
  have hok : ({ c.shell with output := [] } : State).Ok := ⟨h.editor.buffer,h.editor.history⟩
  obtain ⟨t,ht,texts,added,hedit⟩ := keyStep_edits hok k henter
  obtain ⟨w,hwrites,-⟩ := showOutputs_ok h.covers texts
  have houtput : t.output = texts.map Output.text := hedit.output
  refine ⟨⟨t,w,((bytes texts.flatten).foldl feed p).above.length⟩,henter,ht,?_⟩
  rw [houtput,h.scrolled]
  exact hwrites

theorem start {s : State} (hs : s.Ok) (hempty : s.inputBuffer = []) {w v : Writer} (hcolumn : w.columnPosition = 0)
    (hprompt : w.writeString s.user.prompt = .ok v) :
    ∃ p, Typing (bytes s.user.prompt) ⟨s,v,0⟩ p [] := by
  have hprintable : Printable s.user.prompt := by
    cases s.user <;> decide
  obtain ⟨next,hwrite,hcovers⟩ := Covers.follows.writeString (.blank hcolumn) s.user.prompt
  obtain rfl : next = v := Except.ok.inj (hwrite.symm.trans hprompt)
  rw [feed_printable hprintable] at hcovers
  have hholds := (Roll.Holds.blank (α := UInt8) bufferWidth).puts (show 0 < bufferWidth by decide) (bytes s.user.prompt)
  have hrow : ((bytes s.user.prompt).foldl (Roll.put bufferWidth) .blank).above.length = 0 := by
    cases s.user <;> decide
  exact ⟨_,hs,hcovers,hrow.symm,by simpa using hholds,.inl (by rw [hempty]; rfl)⟩

end Typing

/-- Typing from a fresh prompt, whatever the history and whatever stood on the screen: what the
screen shows behind the prompt is the input buffer exactly as long as every key has found
the characters it takes back in the bottom row. -/
theorem screen_echoes_iff (scheduler : Scheduler.TaskManager) {s : State}
    (hs : Runs.Reachable KeyStep (State.boot scheduler).init s) (hempty : s.inputBuffer = []) {w v : Writer}
    (hcolumn : w.columnPosition = 0) (hprompt : w.writeString s.user.prompt = .ok v)
    {path : List (Key × Console)} (hrun : Runs.Along TypingStep ⟨s,v,0⟩ path) :
    (Runs.final ⟨s,v,0⟩ path).Echoes (len s.user.prompt) ↔
      Runs.Along (fun c k _ => c.ErasesInRow k) ⟨s,v,0⟩ path := by
  have hok : s.Ok := Runs.Reachable.invariant (I := State.Ok) (fun _ _ _ => KeyStep.ok) (.boot scheduler) hs
  have hwidth : (bytes s.user.prompt).length ≤ bufferWidth := by cases s.user <;> decide
  obtain ⟨p,hstart⟩ := Typing.start hok hempty hcolumn hprompt
  have hexact : (Runs.final ⟨s,v,0⟩ path).Echoes (len s.user.prompt) ↔
      Console.Echoes (len s.user.prompt) ⟨s,v,0⟩ ∧ Runs.Along (fun c k _ => c.ErasesInRow k) ⟨s,v,0⟩ path :=
    Runs.final_iff (I := fun c => ∃ p shown, Typing (bytes s.user.prompt) c p shown)
    (fun c k d hc hstep => by
      obtain ⟨p,shown,h⟩ := hc
      obtain ⟨q,next,hnext,-⟩ := h.step hstep
      exact ⟨q,next,hnext⟩)
    (fun c k d hc hstep => by
      obtain ⟨p,shown,h⟩ := hc
      obtain ⟨q,next,hnext,hiff⟩ := h.step hstep
      rw [len,hnext.echoes_iff hwidth,h.echoes_iff hwidth]
      exact hiff)
    ⟨p,[],hstart⟩ hrun
  have hfirst : Console.Echoes (len s.user.prompt) ⟨s,v,0⟩ :=
    (hstart.echoes_iff hwidth).mpr (by rw [hempty]; rfl)
  rw [hexact]
  exact and_iff_right hfirst

def freshWriter : Writer := .boot ⟨.replicate 25 (.replicate 80 ⟨0x20,0⟩)⟩

theorem freshWriter_prompt : ∃ v, freshWriter.writeString SessionUser.enos.prompt = .ok v ∧
    Covers v ⟨[],bytes SessionUser.enos.prompt⟩ := by
  obtain ⟨v,hwrite,hcovers⟩ := Covers.follows.writeString (.blank (w := freshWriter) rfl) SessionUser.enos.prompt
  exact ⟨v,hwrite,hcovers⟩

/-- The first key, `a`, is shown. -/
theorem screen_echoes_firstKey : ∃ v d, freshWriter.writeString SessionUser.enos.prompt = .ok v ∧
    TypingStep ⟨(State.boot .new).init,v,0⟩ ⟨0x1e,0,.new⟩ d ∧ d.Echoes 6 := by
  obtain ⟨v,hprompt,-⟩ := freshWriter_prompt
  obtain ⟨p,hstart⟩ := Typing.start (.boot .new) rfl (show freshWriter.columnPosition = 0 from rfl) hprompt
  have henter : ((State.boot .new).init.keyboard.decode 0x1e).1 ≠ some .enter := by decide
  obtain ⟨d,hstep⟩ := hstart.progress (k := ⟨0x1e,0,.new⟩) henter
  have hrun : Runs.Along TypingStep ⟨(State.boot .new).init,v,0⟩ [(⟨0x1e,0,.new⟩,d)] := ⟨hstep,trivial⟩
  exact ⟨v,d,hprompt,hstep,(screen_echoes_iff .new .refl rfl (show freshWriter.columnPosition = 0 from rfl)
    hprompt hrun).mpr ⟨Nat.zero_le _,trivial⟩⟩

def rollKey (x : State × Roll UInt8) (k : Key) : Option (State × Roll UInt8) :=
  match State.processScancode k.heapOffset { x.1 with output := [], scheduler := k.tasks } k.scancode with
  | .error _ => none
  | .ok t =>
    let texts := t.output.filterMap fun
      | .text text => some text
      | .clearScreen => none
    if (x.1.keyboard.decode k.scancode).1 ≠ some .enter ∧ t.output = texts.map .text then
      some (t,(bytes texts.flatten).foldl feed x.2)
    else none

theorem rollKey_step {c : Console} {p q : Roll UInt8} {k : Key} {t : State} (hcovers : Covers c.screen p)
    (hscrolled : c.scrolled = p.above.length) (h : rollKey (c.shell,p) k = some (t,q)) :
    ∃ d, TypingStep c k d ∧ d.shell = t ∧ Covers d.screen q ∧ d.scrolled = q.above.length := by
  unfold rollKey at h
  split at h
  · cases h
  · rename_i u hu
    dsimp only at h
    split_ifs at h with hprints
    obtain ⟨rfl,rfl⟩ := Prod.mk.inj (Option.some.inj h)
    obtain ⟨w,hwrites,hnext⟩ := showOutputs_ok hcovers (u.output.filterMap fun
      | .text text => some text
      | .clearScreen => none)
    refine ⟨⟨u,w,_⟩,⟨hprints.1,hu,?_⟩,rfl,hnext,rfl⟩
    rw [← hprints.2,← hscrolled] at hwrites
    exact hwrites

theorem rollKey_run {c : Console} {p q : Roll UInt8} {keys : List Key} {t : State} (hcovers : Covers c.screen p)
    (hscrolled : c.scrolled = p.above.length) (h : keys.foldlM rollKey (c.shell,p) = some (t,q)) :
    ∃ path, Runs.Along TypingStep c path ∧ path.map Prod.fst = keys ∧ (Runs.final c path).shell = t ∧
      Covers (Runs.final c path).screen q ∧ (Runs.final c path).scrolled = q.above.length := by
  induction keys generalizing c p with
  | nil =>
    obtain ⟨rfl,rfl⟩ := Prod.mk.inj (Option.some.inj h)
    exact ⟨[],trivial,rfl,rfl,hcovers,hscrolled⟩
  | cons k keys ih =>
    rw [List.foldlM_cons] at h
    obtain ⟨⟨u,r⟩,hfirst,hrest⟩ := Option.bind_eq_some_iff.mp h
    obtain ⟨d,hstep,rfl,hnext,hcount⟩ := rollKey_step hcovers hscrolled hfirst
    obtain ⟨path,hpath,hkeys,hfinal⟩ := ih hnext hcount hrest
    exact ⟨(k,d)::path,⟨hstep,hpath⟩,by rw [List.map_cons,hkeys],hfinal⟩

/-- 75 letters and two backspaces: the last letter is alone in the bottom row, and the second
backspace takes a letter from the buffer that stays on the screen. -/
def wrappedKeys : List Key := List.replicate 75 ⟨0x1e,0,.new⟩++[⟨0x0e,0,.new⟩,⟨0x0e,0,.new⟩]

theorem screen_keeps_erased_letter : ∃ v path, freshWriter.writeString SessionUser.enos.prompt = .ok v ∧
    Runs.Along TypingStep ⟨(State.boot .new).init,v,0⟩ path ∧ path.map Prod.fst = wrappedKeys ∧
    (Runs.final ⟨(State.boot .new).init,v,0⟩ path).shell.inputBuffer = List.replicate 73 'a' ∧
    displayed (Runs.final ⟨(State.boot .new).init,v,0⟩ path).screen
      (Runs.final ⟨(State.boot .new).init,v,0⟩ path).scrolled 6 = some (List.replicate 74 0x61) := by
  obtain ⟨v,hprompt,hcovers⟩ := freshWriter_prompt
  have htyped : (wrappedKeys.foldlM rollKey ((State.boot .new).init,⟨[],bytes SessionUser.enos.prompt⟩)).map
      (fun x => (x.1.inputBuffer,x.2.above,x.2.current)) =
        some (List.replicate 73 'a',[bytes SessionUser.enos.prompt++List.replicate 74 0x61],[]) := by
    decide +kernel
  obtain ⟨⟨t,q⟩,hrun,hvalues⟩ := Option.map_eq_some_iff.mp htyped
  simp only [Prod.mk.injEq] at hvalues
  obtain ⟨hbuffer,habove,hcurrent⟩ := hvalues
  obtain ⟨path,hpath,hkeys,rfl,hscreen,hscrolled⟩ :=
    rollKey_run (c := ⟨(State.boot .new).init,v,0⟩) hcovers rfl hrun
  have hholds : q.Holds bufferWidth (bytes SessionUser.enos.prompt++List.replicate 74 0x61) := by
    refine ⟨?_,?_,?_⟩
    · rw [habove]
      decide
    · rw [hcurrent]
      decide
    · rw [habove,hcurrent]
      simp
  have hshown := displayed_eq hscreen hholds (by rw [habove]; decide) 6
  rw [← hscrolled] at hshown
  exact ⟨v,path,hprompt,hpath,hkeys,hbuffer,hshown⟩

end Shell
end EnosKernel
