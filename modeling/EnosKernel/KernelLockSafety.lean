import EnosKernel.KernelLocks

/-! Which handlers can meet a lock that a thread holds.  Every section of the kernel
threads is well formed, and guards the serial port and the scheduler; the keyboard
queue and the screen are the two locks it leaves open. -/
namespace EnosKernel
namespace KernelLocks

open LockMachine

/-- The locks each thread only holds with the flag clear. -/
def Guarded : Thread → Lock → Prop
  | .user, _ => True
  | .background, l => l = .serial1 ∨ l = .scheduler ∨ l = .pics

theorem print_section : Section (Guarded .background) print := Section.masked Lock.writer

theorem serialPrint_section : Section (Guarded .background) serialPrint := Section.masked Lock.serial1

theorem scheduler_section :
    Section (Guarded .background) (withoutInterrupts (lockOnce .scheduler)) := Section.masked Lock.scheduler

theorem lockOnce_section (l : Lock) (hl : l ≠ .serial1 ∧ l ≠ .scheduler ∧ l ≠ .pics) :
    Section (Guarded .background) (lockOnce l) := Section.plain (by simpa [Guarded] using hl)

theorem prints_section (n : ℕ) : Section (Guarded .background) (prints n) := by
  apply Section.flatten
  intro code hcode
  rw [List.eq_of_mem_replicate hcode]
  exact print_section

theorem optional_section {code : Code Lock} (b : Bool) (h : Section (Guarded .background) code) :
    Section (Guarded .background) (if b then code else []) := by
  cases b with
  | true => exact h
  | false => exact Section.nil

theorem requireRoot_section (root : Bool) : Section (Guarded .background) (requireRoot root) := by
  refine (lockOnce_section .session (by decide)).append ?_
  cases root with
  | true => exact Section.nil
  | false => exact print_section

theorem replaceInputLine_section (count : ℕ) :
    Section (Guarded .background) (replaceInputLine count) := by
  refine (Section.around (by simp [Guarded]) (prints_section count) ?_).append print_section
  intro i hi
  obtain ⟨code,hcode,hi⟩ := List.mem_flatten.mp hi
  rw [List.eq_of_mem_replicate hcode] at hi
  simp only [print,withoutInterrupts,lockOnce,List.cons_append,List.nil_append,List.mem_cons,
    List.not_mem_nil,or_false] at hi
  rcases hi with rfl | rfl | rfl | rfl <;> simp

theorem entry_section (entry : Option ℕ) :
    Section (Guarded .background) (entry.elim [] replaceInputLine) := by
  cases entry with
  | none => exact Section.nil
  | some count => exact replaceInputLine_section count

theorem commandPs_section (rows : ℕ) : Section (Guarded .background) (commandPs rows) :=
  scheduler_section.append (prints_section (rows+1))

theorem fileCommand_section (accepted : Bool) :
    Section (Guarded .background) (fileCommand accepted) :=
  (optional_section accepted (lockOnce_section .files (by decide))).append print_section

theorem command_section (command : Command) : Section (Guarded .background) command.run := by
  cases command with
  | clear => exact lockOnce_section .writer (by decide)
  | echo => exact print_section
  | calcExpression => exact print_section
  | help => exact prints_section 23
  | uptime => exact scheduler_section.append print_section
  | ps rows => exact commandPs_section rows
  | top rows => exact (scheduler_section.append scheduler_section).append (prints_section (rows+2))
  | tasks rows => exact (scheduler_section.append (prints_section 5)).append (commandPs_section rows)
  | meminfo => exact (lockOnce_section .files (by decide)).append (prints_section 5)
  | whoami => exact (lockOnce_section .session (by decide)).append print_section
  | id => exact (lockOnce_section .session (by decide)).append print_section
  | login known => exact (optional_section known (lockOnce_section .session (by decide))).append print_section
  | logout => exact (lockOnce_section .session (by decide)).append print_section
  | kill root parsed rows =>
    refine (requireRoot_section root).append (optional_section root ?_)
    cases parsed with
    | true => exact (scheduler_section.append print_section).append (commandPs_section rows)
    | false => exact print_section
  | touch accepted => exact fileCommand_section accepted
  | rm root named =>
    exact (requireRoot_section root).append (optional_section root (fileCommand_section named))
  | ls count =>
    refine (lockOnce_section .files (by decide)).append ?_
    split
    · exact print_section
    · exact prints_section (count+1)
  | write accepted => exact fileCommand_section accepted
  | cat named => exact fileCommand_section named
  | fsinfo => exact (lockOnce_section .files (by decide)).append (prints_section 4)
  | about => exact prints_section 2
  | unknown => exact print_section

theorem evaluateCommand_section (command : Option Command) :
    Section (Guarded .background) (evaluateCommand command) := by
  have hstart := (lockOnce_section .inputBuffer (by decide)).append (lockOnce_section .history (by decide))
  have hprompt := (lockOnce_section .session (by decide)).append print_section
  cases command with
  | none => exact hstart.append hprompt
  | some command => exact (hstart.append (command_section command)).append hprompt

theorem pushChar_section (key : Key) : Section (Guarded .background) (pushChar key) := by
  have hhistory := lockOnce_section .history (by decide)
  have hbuffer := lockOnce_section .inputBuffer (by decide)
  cases key with
  | backspace popped =>
    exact (hhistory.append hbuffer).append (optional_section popped print_section)
  | newline command => exact print_section.append (evaluateCommand_section command)
  | char room =>
    exact hbuffer.append (optional_section room ((hhistory.append hbuffer).append print_section))

theorem action_section (action : InputAction) : Section (Guarded .background) action.run := by
  have hhistory := lockOnce_section .history (by decide)
  cases action with
  | ignored => exact Section.nil
  | backspace popped => exact pushChar_section (.backspace popped)
  | enter command => exact pushChar_section (.newline command)
  | tab rooms =>
    apply Section.flatten
    intro code hcode
    obtain ⟨room,-,rfl⟩ := List.mem_map.mp hcode
    exact pushChar_section _
  | historyUp entry =>
    exact ((lockOnce_section .inputBuffer (by decide)).append hhistory).append (entry_section entry)
  | historyDown entry => exact hhistory.append (entry_section entry)
  | char room => exact pushChar_section (.char room)

theorem backgroundThread_section (actions : List InputAction) (heartbeat : Bool) :
    Section (Guarded .background) (backgroundThread actions heartbeat) := by
  have hpop : Section (Guarded .background) popScancode := lockOnce_section .scancodeQueue (by decide)
  have hstate := lockOnce_section .keyboardState (by decide)
  refine (Section.append (Section.flatten ?_) ?_).append (optional_section heartbeat serialPrint_section)
  · intro code hcode
    obtain ⟨action,-,rfl⟩ := List.mem_map.mp hcode
    exact hpop.append (hstate.append (action_section action))
  · split
    · exact hpop
    · exact Section.nil

theorem handler_section (e : Event) : Section (fun _ => False) (system.handler e) := by
  cases e with
  | keyboard => exact (Section.plain id).append (Section.plain id)
  | timer => exact (Section.plain id).append (Section.plain id)
  | syscall number printable =>
    simp only [system,syscallDispatcher]
    split
    · split
      · exact (Section.masked _).append (Section.masked _)
      · exact Section.nil
    · exact Section.plain id
    · exact Section.plain id
    · exact Section.masked _
  | pageFault address code => exact (Section.masked _).append (Section.plain id)

theorem system_wellFormed : system.WellFormed Guarded where
  program := by
    intro t code hp
    cases t with
    | user => exact hp.elim
    | background =>
      obtain ⟨actions,heartbeat,-,rfl⟩ := hp
      exact backgroundThread_section actions heartbeat
  handlerOutside := fun e => (handler_section e).outside
  handlerAlternating := fun e => (handler_section e).alternating

/-- The background thread stands between `SCANCODE_QUEUE.lock()` and the end of the block that
pops a scancode. -/
def InPopBlock (s : State Lock Thread Event) : Prop :=
  inside .scancodeQueue (s.threads .background).code = true

/-- The background thread stands behind `WRITER.lock()` with the interrupt flag set, which only
happens in `clear_screen`. -/
def InClearScreen (s : State Lock Thread Event) : Prop :=
  inside .writer (s.threads .background).code = true ∧ (s.threads .background).flag = true

theorem user_idle {s : State Lock Thread Event} (h : Runs.Reachable (Step system) start s) :
    s.threads .user = ⟨[],true,[]⟩ := by
  refine h.invariant (I := fun s => s.threads .user = ⟨[],true,[]⟩) ?_ rfl
  intro s a s' hs hstep
  cases hstep with
  | fetch hh hidle hp =>
    have hne : Thread.user ≠ s.current := by
      intro hcur
      rw [← hcur] at hp
      exact hp
    exact (Function.update_of_ne hne _ _).trans hs
  | exec hh hcode hrun =>
    have hne : Thread.user ≠ s.current := by
      intro hcur
      rw [← hcur,hs] at hcode
      cases hcode
    exact (Function.update_of_ne hne _ _).trans hs
  | enter => exact hs
  | handle => exact hs
  | leave => exact hs

theorem user_outside {s : State Lock Thread Event} (hs : Invariant Guarded s)
    (hflag : (s.threads s.current).flag = true) (l : Lock) : inside l (s.threads .user).code = false :=
  hs.guarded_outside hflag trivial

/-- Which handlers take which lock: but for the queue and the screen, the background thread guards
all of them. -/
theorem acquire_mem_handler {e : Event} {l : Lock} (h : .acquire l ∈ system.handler e) :
    Guarded .background l ∨ l = .scancodeQueue ∧ e = .keyboard ∨ l = .writer ∧ e = .syscall 1 true := by
  cases e with
  | keyboard =>
    have hl : l = .scancodeQueue ∨ l = .pics := by simpa [system,keyboardInterruptHandler,ack,lockOnce] using h
    rcases hl with rfl | rfl <;> simp [Guarded]
  | timer =>
    have hl : l = .pics ∨ l = .scheduler := by simpa [system,schedulerTick,ack,lockOnce] using h
    rcases hl with rfl | rfl <;> simp [Guarded]
  | syscall number printable =>
    simp only [system,syscallDispatcher] at h
    split at h
    · cases printable with
      | true =>
        have hl : l = .writer ∨ l = .serial1 := by simpa [print,serialPrint,withoutInterrupts,lockOnce] using h
        rcases hl with rfl | rfl <;> simp [Guarded]
      | false => simp at h
    · have hl : l = .scheduler := by simpa [sleepCurrentTask,lockOnce] using h
      simp [Guarded,hl]
    · have hl : l = .scheduler := by simpa [sleepCurrentTask,lockOnce] using h
      simp [Guarded,hl]
    · have hl : l = .serial1 := by simpa [serialPrint,withoutInterrupts,lockOnce] using h
      simp [Guarded,hl]
  | pageFault address code =>
    have hl : l = .serial1 ∨ l = .scheduler := by
      simpa [system,pageFaultDispatcher,terminateFromFault,serialPrint,withoutInterrupts,lockOnce] using h
    rcases hl with rfl | rfl <;> simp [Guarded]

theorem scancodeQueue_mem_handler {e : Event} (h : .acquire Lock.scancodeQueue ∈ system.handler e) :
    e = .keyboard := by simpa [Guarded] using acquire_mem_handler h

theorem writer_mem_handler {e : Event} (h : .acquire Lock.writer ∈ system.handler e) :
    e = .syscall 1 true := by simpa [Guarded] using acquire_mem_handler h

theorem keyboard_clears_iff {s s' : State Lock Thread Event} {a : Action Lock Thread Event}
    (hs : Invariant Guarded s) (hstep : Step system s a s') :
    Clears system (fun l => l = .scancodeQueue) s a ↔ (a = .enter .keyboard → ¬ InPopBlock s) := by
  constructor
  · intro hclear ha hpop
    have hout := hclear _ ha _ rfl (by simp [system,keyboardInterruptHandler,lockOnce]) .background
    simp [InPopBlock,hout] at hpop
  · rintro hpop e rfl l rfl hmem t
    cases hstep with
    | enter hh hflag =>
      cases t with
      | user => exact user_outside hs hflag _
      | background =>
        rw [scancodeQueue_mem_handler hmem] at hpop
        simpa [InPopBlock] using hpop rfl

/-- A run ends with the keyboard handler spinning on the queue exactly if it accepted a keyboard
interrupt while the background thread was in the pop block. -/
theorem keyboard_discipline (path : List (Action Lock Thread Event × State Lock Thread Event))
    (hrun : Runs.Along (Step system) start path) :
    ¬ Blocked (Runs.final start path) .scancodeQueue ↔
      Runs.Along (fun s a _ => a = .enter .keyboard → ¬ InPopBlock s) start path := by
  have hs := Invariant.reachable system_wellFormed hrun.reachable
  have hiff : Unobstructed (fun l => l = .scancodeQueue) (Runs.final start path) ↔ _ :=
    unobstructed_iff system_wellFormed (fun _ _ _ => keyboard_clears_iff) hrun
  refine Iff.trans ?_ hiff
  refine ⟨?_,fun hclear => hclear.not_blocked hs rfl⟩
  intro hfree p hp l hl hmem t
  subst hl
  by_contra hin
  have hsuffix := handler_suffix hrun.reachable p hp
  have hevent := scancodeQueue_mem_handler (hsuffix.mem hmem)
  rw [hevent] at hsuffix
  rcases List.suffix_cons_iff.mp hsuffix with hcode | htail
  · exact hfree ⟨p.1,p.2,_,t,hp,hcode,(hs.threadOwner _ _).mpr (by simpa using hin)⟩
  · have := htail.mem hmem
    simp [ack,lockOnce] at this

def firstKey : List (Action Lock Thread Event × State Lock Thread Event) :=
  [(.enter .keyboard,{ start with handler := some (.keyboard,⟨keyboardInterruptHandler,false,[]⟩) })]

theorem keyboard_discipline_firstKey : Runs.Along (Step system) start firstKey ∧
    ¬ Blocked (Runs.final start firstKey) .scancodeQueue := by
  have hrun : Runs.Along (Step system) start firstKey := ⟨.enter rfl rfl trivial,trivial⟩
  refine ⟨hrun,(keyboard_discipline firstKey hrun).mpr ⟨fun _ hpop => ?_,trivial⟩⟩
  cases hpop

/-- A tick starts the background thread, which takes the queue's lock; then a key is pressed. -/
theorem keyboard_blocked : ∃ s, Runs.Reachable (Step system) start s ∧ Blocked s .scancodeQueue := by
  refine Runs.leads_of_step (a := .enter .timer) (.enter rfl rfl trivial) ?_
  iterate 4 refine Runs.leads_of_step (Step.handle rfl rfl rfl) ?_
  refine Runs.leads_of_step (a := .leave .background) (.leave rfl rfl (.inr trivial)) ?_
  refine Runs.leads_of_step (.fetch rfl rfl ⟨[],false,by decide,rfl⟩) ?_
  refine Runs.leads_of_step (.exec rfl rfl rfl) ?_
  refine Runs.leads_of_step (a := .enter .keyboard) (.enter rfl rfl trivial) ?_
  exact ⟨_,.refl,.keyboard,_,_,.background,rfl,rfl,rfl⟩

theorem print_clears_iff {s s' : State Lock Thread Event} {a : Action Lock Thread Event}
    (hs : Invariant Guarded s) (hstep : Step system s a s') :
    Clears system (fun l => l = .writer ∨ l = .serial1 ∨ l = .scheduler) s a ↔
      (a = .enter (.syscall 1 true) → ¬ InClearScreen s) := by
  constructor
  · intro hclear ha hin
    have hmem : .acquire Lock.writer ∈ system.handler (.syscall 1 true) := by
      simp [system,syscallDispatcher,print,withoutInterrupts,lockOnce]
    have hout := hclear _ ha _ (.inl rfl) hmem .background
    simp [InClearScreen,hout] at hin
  · rintro hclear e rfl l hl hmem t
    cases hstep with
    | enter hh hflag =>
      cases t with
      | user => exact user_outside hs hflag l
      | background =>
        rcases hl with rfl | rfl | rfl
        · rw [writer_mem_handler hmem] at hclear
          simpa [InClearScreen,hs.all_enabled hflag .background] using hclear rfl
        · exact hs.guarded_outside hflag (by simp [Guarded])
        · exact hs.guarded_outside hflag (by simp [Guarded])

/-- A key while the background thread is in the pop block, or a printing call while it is in
`clear_screen`. -/
def Obstructed (s : State Lock Thread Event) (e : Event) : Prop :=
  e = .keyboard ∧ InPopBlock s ∨ e = .syscall 1 true ∧ InClearScreen s

/-- No other event finds a lock of its handler taken. -/
theorem clears_iff {s s' : State Lock Thread Event} {e : Event} (hs : Invariant Guarded s)
    (hstep : Step system s (.enter e) s') : Clears system (fun _ => True) s (.enter e) ↔ ¬ Obstructed s e := by
  have hqueue := keyboard_clears_iff hs hstep
  have hscreen := print_clears_iff hs hstep
  simp only [Action.enter.injEq] at hqueue hscreen
  constructor
  · rintro hclear (⟨he,hpop⟩ | ⟨he,hin⟩)
    · exact hqueue.mp (fun e he l _ => hclear e he l trivial) he hpop
    · exact hscreen.mp (fun e he l _ => hclear e he l trivial) he hin
  · intro hnot e' he l _ hmem
    obtain rfl := Action.enter.inj he
    rcases acquire_mem_handler hmem with hguarded | ⟨rfl,-⟩ | ⟨rfl,-⟩
    · cases hstep with
      | enter hh hflag =>
        intro t
        cases t with
        | user => exact user_outside hs hflag l
        | background => exact hs.guarded_outside hflag hguarded
    · exact hqueue.mpr (fun he hpop => hnot (.inl ⟨he,hpop⟩)) _ rfl _ rfl hmem
    · exact hscreen.mpr (fun he hin => hnot (.inr ⟨he,hin⟩)) _ rfl _ (.inl rfl) hmem

def HandlerStep (s : State Lock Thread Event) (a : Action Lock Thread Event)
    (s' : State Lock Thread Event) : Prop := Step system s a s' ∧ a = .handle

theorem not_blocked_of_handlerStep {L : Lock → Prop} {s s' : State Lock Thread Event}
    (hs : Invariant Guarded s) (hclear : Unobstructed L s) (h : Runs.Reachable HandlerStep s s') {l : Lock}
    (hl : L l) : ¬ Blocked s' l := by
  have hend : Invariant Guarded s' ∧ Unobstructed L s' := by
    refine h.invariant (I := fun s => Invariant Guarded s ∧ Unobstructed L s) ?_ ⟨hs,hclear⟩
    rintro s a s' ⟨hs,hclear⟩ ⟨hstep,rfl⟩
    exact ⟨hs.step system_wellFormed hstep,hclear.step hstep (fun e he => by cases he)⟩
  exact hend.2.not_blocked hend.1 hl

theorem print_spins {s : State Lock Thread Event} {e : Event} {c : Context Lock} {t : Thread}
    (hh : s.handler = some (e,c)) (hsuffix : c.code <:+ syscallDispatcher 1 true)
    (hmem : .acquire Lock.writer ∈ c.code) (howner : s.owner .writer = some (.thread t)) :
    ∃ s', Runs.Reachable HandlerStep s s' ∧ Blocked s' .writer := by
  rcases List.suffix_cons_iff.mp hsuffix with hcode | hsuffix
  · refine Runs.leads_of_step (a := .handle) ⟨.handle hh hcode rfl,rfl⟩ ?_
    exact ⟨_,.refl,e,_,_,t,rfl,rfl,howner⟩
  · rcases List.suffix_cons_iff.mp hsuffix with hcode | htail
    · exact ⟨s,.refl,e,c,_,t,hh,hcode,howner⟩
    · have := htail.mem hmem
      simp [serialPrint,withoutInterrupts,lockOnce] at this

/-- Finishing the handler in which a run ends meets no held screen, serial port or scheduler
exactly if every printing system call of the run was made outside `clear_screen`. -/
theorem preemption_discipline (path : List (Action Lock Thread Event × State Lock Thread Event))
    (hrun : Runs.Along (Step system) start path) :
    (∀ s, Runs.Reachable HandlerStep (Runs.final start path) s →
      ¬ Blocked s .writer ∧ ¬ Blocked s .serial1 ∧ ¬ Blocked s .scheduler) ↔
    Runs.Along (fun s a _ => a = .enter (.syscall 1 true) → ¬ InClearScreen s) start path := by
  have hs := Invariant.reachable system_wellFormed hrun.reachable
  have hiff : Unobstructed (fun l => l = .writer ∨ l = .serial1 ∨ l = .scheduler) (Runs.final start path) ↔ _ :=
    unobstructed_iff system_wellFormed (fun _ _ _ => print_clears_iff) hrun
  refine Iff.trans ?_ hiff
  constructor
  · intro hfree p hp l hl hmem t
    have hflag := hs.enabled (Runs.final start path).current (.inr (by simp [hp]))
    cases t with
    | user => exact user_outside hs hflag l
    | background =>
      rcases hl with rfl | rfl | rfl
      · by_contra hin
        have hsuffix := handler_suffix hrun.reachable p hp
        rw [writer_mem_handler (hsuffix.mem hmem)] at hsuffix
        have howner := (hs.threadOwner .writer .background).mpr (by simpa using hin)
        obtain ⟨s',hreach,hblocked⟩ := print_spins hp hsuffix hmem howner
        exact (hfree s' hreach).1 hblocked
      · exact hs.guarded_outside hflag (by simp [Guarded])
      · exact hs.guarded_outside hflag (by simp [Guarded])
  · intro hclear s hreach
    have hfree := fun l hl => not_blocked_of_handlerStep (l := l) hs hclear hreach hl
    exact ⟨hfree _ (.inl rfl),hfree _ (.inr (.inl rfl)),hfree _ (.inr (.inr rfl))⟩

def firstPrint : List (Action Lock Thread Event × State Lock Thread Event) :=
  [(.enter (.syscall 1 true),
    { start with handler := some (.syscall 1 true,⟨syscallDispatcher 1 true,false,[]⟩) })]

theorem preemption_discipline_firstPrint : Runs.Along (Step system) start firstPrint ∧
    ∀ s, Runs.Reachable HandlerStep (Runs.final start firstPrint) s → ¬ Blocked s .writer := by
  have hrun : Runs.Along (Step system) start firstPrint := ⟨.enter rfl rfl rfl,trivial⟩
  refine ⟨hrun,fun s hreach => ((preemption_discipline firstPrint hrun).mpr ⟨?_,trivial⟩ s hreach).1⟩
  rintro - ⟨hin,-⟩
  cases hin

/-- The command `clear` is preempted behind `WRITER.lock()`, and the user task prints. -/
theorem print_blocked : ∃ s, Runs.Reachable (Step system) start s ∧ Blocked s .writer := by
  refine Runs.leads_of_step (a := .enter .timer) (.enter rfl rfl trivial) ?_
  iterate 4 refine Runs.leads_of_step (Step.handle rfl rfl rfl) ?_
  refine Runs.leads_of_step (a := .leave .background) (.leave rfl rfl (.inr trivial)) ?_
  refine Runs.leads_of_step (.fetch rfl rfl ⟨[.enter (some .clear)],false,by decide,rfl⟩) ?_
  iterate 13 refine Runs.leads_of_step (.exec rfl rfl rfl) ?_
  refine Runs.leads_of_step (a := .enter .timer) (.enter rfl rfl trivial) ?_
  iterate 4 refine Runs.leads_of_step (Step.handle rfl rfl rfl) ?_
  refine Runs.leads_of_step (a := .leave .user) (.leave rfl rfl (.inr trivial)) ?_
  refine Runs.leads_of_step (a := .enter (.syscall 1 true)) (.enter rfl rfl rfl) ?_
  refine Runs.leads_of_step (.handle rfl rfl rfl) ?_
  exact ⟨_,.refl,.syscall 1 true,_,_,.background,rfl,rfl,rfl⟩

end KernelLocks
end EnosKernel
