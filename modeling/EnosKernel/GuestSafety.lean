import EnosKernel.Runs
import EnosKernel.ShellCommands

/-! What a command line may change, and what a session without root rights cannot do. -/
namespace EnosKernel
namespace Shell

open RustStr Scheduler

def OnlyPrints (s t : State) : Prop := ∃ output, t = { s with output := output }

namespace OnlyPrints

variable {s t u : State}

theorem refl (s : State) : OnlyPrints s s := ⟨s.output,rfl⟩

theorem trans (h : OnlyPrints s t) (h' : OnlyPrints t u) : OnlyPrints s u := by
  obtain ⟨_,rfl⟩ := h
  obtain ⟨output,rfl⟩ := h'
  exact ⟨output,rfl⟩

theorem println (s : State) (text : List Char) : OnlyPrints s (s.println text) := ⟨_,rfl⟩

theorem printPrompt (s : State) : OnlyPrints s s.printPrompt := ⟨_,rfl⟩

theorem printlns (s : State) (lines : List (List Char)) : OnlyPrints s (s.printlns lines) := by
  induction lines generalizing s with
  | nil => exact refl s
  | cons line lines ih => exact (println s line).trans (ih _)

theorem commandEcho (s : State) (line : List Char) : OnlyPrints s (commandEcho s line) := by
  unfold Shell.commandEcho
  dsimp only
  split_ifs <;> exact println _ _

theorem commandCalc (s : State) (line : List Char) : OnlyPrints s (commandCalc s line) := by
  unfold Shell.commandCalc
  dsimp only
  split_ifs
  · exact println _ _
  · split
    · exact println _ _
    · exact println _ _
    · exact refl s

theorem commandLs (s : State) : OnlyPrints s (commandLs s) := by
  unfold Shell.commandLs
  dsimp only
  split_ifs
  · exact println _ _
  · exact printlns _ _

theorem commandCat (s : State) (line : List Char) : OnlyPrints s (commandCat s line) := by
  unfold Shell.commandCat
  split
  · exact println _ _
  · split <;> exact println _ _

end OnlyPrints

def AsksForRoot (line : List Char) : Prop :=
  ((splitWhitespace line)[0]? = some "login".toList ∨ (splitWhitespace line)[0]? = some "su".toList) ∧
    (splitWhitespace line)[1]? = some "enos".toList

instance (line : List Char) : Decidable (AsksForRoot line) := inferInstanceAs (Decidable (_ ∧ _))

def NamesKept (before after : RamFs.Files) : Prop := ∀ file ∈ before, ∃ kept ∈ after, kept.name = file.name

namespace NamesKept

theorem refl (files : RamFs.Files) : NamesKept files files := fun file h => ⟨file,h,rfl⟩

theorem trans {a b c : RamFs.Files} (h : NamesKept a b) (h' : NamesKept b c) : NamesKept a c := by
  intro file hfile
  obtain ⟨kept,hkept,hname⟩ := h file hfile
  obtain ⟨last,hlast,hname'⟩ := h' kept hkept
  exact ⟨last,hlast,hname'.trans hname⟩

theorem createFile (name : String) (files : RamFs.Files) : NamesKept files (RamFs.createFile name files).2 := by
  have hadded : NamesKept files (files++[⟨name,""⟩]) :=
    fun file hfile => ⟨file,List.mem_append_left _ hfile,rfl⟩
  unfold RamFs.createFile
  split_ifs <;> first | exact hadded | exact refl files

theorem writeFile (name content : String) (files : RamFs.Files) :
    NamesKept files (RamFs.writeFile name content files).2 := by
  unfold RamFs.writeFile
  split_ifs
  · exact refl files
  · split
    · exact refl files
    · intro file hfile
      obtain ⟨i,hi,rfl⟩ := List.getElem_of_mem hfile
      refine ⟨_,List.getElem_mem (by simpa using hi),?_⟩
      rw [List.getElem_modify]
      split_ifs <;> rfl

end NamesKept

/-- What a command may do: the editor's own state stays, and tasks, files and the session
change only in the named ways. -/
structure Effect (line : List Char) (s t : State) : Prop where
  inputBuffer : t.inputBuffer = s.inputBuffer
  keyboard : t.keyboard = s.keyboard
  history : t.history = s.history
  scheduler : t.scheduler = s.scheduler ∨ s.user = .enos
  files : NamesKept s.files t.files ∨ s.user = .enos
  user : t.user = s.user ∨ t.user = .guest ∨ AsksForRoot line

namespace Effect

variable {line : List Char} {s t u : State}

theorem of_onlyPrints (h : OnlyPrints s t) : Effect line s t := by
  obtain ⟨_,rfl⟩ := h
  exact ⟨rfl,rfl,rfl,.inl rfl,.inl (.refl _),.inl rfl⟩

theorem print_after (h : Effect line s t) (h' : OnlyPrints t u) : Effect line s u := by
  obtain ⟨_,rfl⟩ := h'
  exact ⟨h.inputBuffer,h.keyboard,h.history,h.scheduler,h.files,h.user⟩

theorem switchUser_guest (s : State) : Effect line s (s.switchUser .guest) :=
  ⟨rfl,rfl,rfl,.inl rfl,.inl (.refl _),.inr (.inl rfl)⟩

theorem setFiles {files : RamFs.Files} (h : NamesKept s.files files ∨ s.user = .enos) :
    Effect line s { s with files := files } :=
  ⟨rfl,rfl,rfl,.inl rfl,h,.inl rfl⟩

theorem commandLogin (s : State) (hfirst : (splitWhitespace line)[0]? = some "login".toList ∨
    (splitWhitespace line)[0]? = some "su".toList) : Effect line s (commandLogin s line) := by
  unfold Shell.commandLogin
  split
  · exact of_onlyPrints (.println _ _)
  · rename_i target htarget
    split_ifs with henos
    · have hroot : AsksForRoot line := ⟨hfirst,by rw [← henos]; exact htarget⟩
      exact ⟨rfl,rfl,rfl,.inl rfl,.inl (.refl _),.inr (.inr hroot)⟩
    · exact (switchUser_guest s).print_after (.println _ _)
    · exact of_onlyPrints (.println _ _)

theorem commandTouch (s : State) : Effect line s (commandTouch s line) := by
  unfold Shell.commandTouch
  split
  · exact of_onlyPrints (.println _ _)
  · rename_i name _
    have hfiles : Effect line s { s with files := (RamFs.createFile (String.ofList name) s.files).2 } :=
      setFiles (.inl (.createFile _ _))
    dsimp only
    split <;> exact hfiles.print_after (.println _ _)

theorem commandWrite (s : State) : Effect line s (commandWrite s line) := by
  unfold Shell.commandWrite
  dsimp only
  split
  · exact of_onlyPrints (.println _ _)
  · split
    · exact of_onlyPrints (.println _ _)
    · rename_i name _ _ content _
      have hfiles : Effect line s { s with
          files := (RamFs.writeFile (String.ofList name) (String.ofList (trimStart content)) s.files).2 } :=
        setFiles (.inl (.writeFile _ _ _))
      split <;> exact hfiles.print_after (.println _ _)

end Effect

theorem State.requireRoot_cases (s : State) (action : List Char) :
    (s.user = .enos ∧ s.requireRoot action = (true,s)) ∨
      (s.user = .guest ∧ ∃ t, s.requireRoot action = (false,t) ∧ OnlyPrints s t) := by
  cases huser : s.user with
  | enos => exact .inl ⟨rfl,by simp [requireRoot,huser,SessionUser.isRoot]⟩
  | guest =>
    refine .inr ⟨rfl,(s.requireRoot action).2,?_,?_⟩
    · simp [requireRoot,huser,SessionUser.isRoot]
    · simpa [requireRoot,huser,SessionUser.isRoot] using OnlyPrints.println s _

namespace Effect

variable {line : List Char}

theorem commandRm (s : State) : Effect line s (commandRm s line) := by
  unfold Shell.commandRm
  rcases s.requireRoot_cases "rm".toList with ⟨huser,hroot⟩ | ⟨-,t,hroot,hprints⟩
  · rw [hroot]
    dsimp only
    split
    · exact of_onlyPrints (.println _ _)
    · rename_i name _
      have hfiles : Effect line s { s with files := (RamFs.deleteFile (String.ofList name) s.files).2 } :=
        setFiles (.inr huser)
      split <;> exact hfiles.print_after (.println _ _)
  · rw [hroot]
    exact of_onlyPrints hprints

theorem commandKill {s t : State} (h : commandKill s line = .ok t) : Effect line s t := by
  unfold Shell.commandKill at h
  rcases s.requireRoot_cases "kill".toList with ⟨huser,hroot⟩ | ⟨-,u,hroot,hprints⟩
  · rw [hroot] at h
    dsimp only at h
    split at h
    · cases h
      exact of_onlyPrints (.println _ _)
    · split at h
      · cases h
        exact of_onlyPrints (.println _ _)
      · obtain ⟨⟨answer,scheduler⟩,-,h⟩ := MachineArith.bind_eq_ok.mp h
        cases h
        have hkilled : Effect line s { s with scheduler := scheduler } :=
          ⟨rfl,rfl,rfl,.inr huser,.inl (.refl _),.inl rfl⟩
        exact hkilled.print_after ((OnlyPrints.println _ _).trans (.printlns _ _))
  · rw [hroot] at h
    cases h
    exact of_onlyPrints hprints

theorem dispatch {heapOffset : ℕ} {s t : State} {command : List Char}
    (hcommand : (splitWhitespace line)[0]?.getD [] = command)
    (h : dispatch heapOffset s command line = .ok t) : Effect line s t := by
  -- a command word is not empty, so the line really starts with it
  have hfirst : ∀ word : String, word ≠ "" → String.ofList command = word →
      (splitWhitespace line)[0]? = some word.toList := by
    intro word hne hword
    have hlist : command = word.toList := by rw [← hword,String.toList_ofList]
    cases hhead : (splitWhitespace line)[0]? with
    | none =>
      rw [hhead,hlist] at hcommand
      exact absurd (String.toList_eq_nil_iff.mp hcommand.symm) hne
    | some first =>
      rw [hhead,Option.getD_some] at hcommand
      rw [hcommand,hlist]
  unfold Shell.dispatch at h
  split at h
  case h_12 hword =>
    cases h
    exact commandLogin s (.inl (hfirst "login" (by decide) hword))
  case h_13 hword =>
    cases h
    exact commandLogin s (.inr (hfirst "su" (by decide) hword))
  case h_15 => exact commandKill h
  all_goals cases h
  case h_1.refl => exact of_onlyPrints ⟨_,rfl⟩
  case h_2.refl => exact of_onlyPrints (.commandEcho s line)
  case h_3.refl => exact of_onlyPrints (.commandCalc s line)
  case h_5.refl => exact of_onlyPrints (.println _ _)
  case h_10.refl => exact of_onlyPrints (.println _ _)
  case h_11.refl => exact of_onlyPrints (.println _ _)
  case h_8.refl => exact of_onlyPrints ((OnlyPrints.printlns _ _).trans (.printlns _ _))
  case h_14.refl => exact (switchUser_guest s).print_after (.println _ _)
  case h_16.refl => exact commandTouch s
  case h_17.refl => exact commandRm s
  case h_18.refl => exact of_onlyPrints (.commandLs s)
  case h_19.refl => exact commandWrite s
  case h_20.refl => exact of_onlyPrints (.commandCat s line)
  case h_23.refl => exact of_onlyPrints (.println _ _)
  all_goals exact of_onlyPrints (.printlns _ _)

theorem evaluateCommand {heapOffset : ℕ} {s t : State} (h : evaluateCommand heapOffset s = .ok t) :
    Effect s.inputBuffer
      { s with inputBuffer := [], history := s.history.record (trim s.inputBuffer) } t := by
  unfold Shell.evaluateCommand at h
  dsimp only at h
  split_ifs at h with hempty
  · cases h
    rw [hempty]
    exact of_onlyPrints (.printPrompt _)
  · obtain ⟨u,hdispatch,h⟩ := MachineArith.bind_eq_ok.mp h
    cases h
    have heffect := (Effect.dispatch rfl hdispatch).print_after (.printPrompt u)
    exact { heffect with user := by simpa only [AsksForRoot,splitWhitespace_trim] using heffect.user }

end Effect

/-- One command line: the text, and what the tasks and the heap are when it runs. -/
structure CommandLine where
  line : List Char
  heapOffset : ℕ
  tasks : TaskManager

def LineStep (s : State) (c : CommandLine) (t : State) : Prop :=
  evaluateCommand c.heapOffset { s with inputBuffer := c.line, scheduler := c.tasks } = .ok t

theorem LineStep.effect {s t : State} {c : CommandLine} (h : LineStep s c t) :
    Effect c.line { s with inputBuffer := [], scheduler := c.tasks, history := s.history.record (trim c.line) } t :=
  Effect.evaluateCommand h

/-- Only `kill` can panic, and a guest does not get that far. -/
theorem dispatch_guest {s : State} (hguest : s.user = .guest) (heapOffset : ℕ) (command line : List Char) :
    ∃ t, dispatch heapOffset s command line = .ok t := by
  have hkill : ∃ t, commandKill s line = .ok t := by
    rcases s.requireRoot_cases "kill".toList with ⟨huser,-⟩ | ⟨-,t,hroot,-⟩
    · rw [hguest] at huser
      cases huser
    · exact ⟨t,by rw [commandKill,hroot]⟩
  unfold dispatch
  split <;> first | exact hkill | exact ⟨_,rfl⟩

theorem lineStep_guest {s : State} (hguest : s.user = .guest) (c : CommandLine) : ∃ t, LineStep s c t := by
  unfold LineStep evaluateCommand
  dsimp only
  split_ifs
  · exact ⟨_,rfl⟩
  · obtain ⟨t,hdispatch⟩ := dispatch_guest (s := { s with
      inputBuffer := [], scheduler := c.tasks, history := s.history.record (trim c.line) }) hguest c.heapOffset
        ((splitWhitespace (trim c.line))[0]?.getD []) (trim c.line)
    exact ⟨_,by rw [hdispatch]; rfl⟩

theorem LineStep.guest {s t : State} {c : CommandLine} (h : LineStep s c t) (hguest : s.user = .guest)
    (hline : ¬ AsksForRoot c.line) : t.user = .guest := by
  rcases h.effect.user with huser | huser | hroot
  · exact huser.trans hguest
  · exact huser
  · exact absurd hroot hline

theorem LineStep.privileged {s t : State} {c : CommandLine} (h : LineStep s c t) :
    s.user = .enos ∨ (t.scheduler = c.tasks ∧ NamesKept s.files t.files) := by
  rcases h.effect.scheduler with hscheduler | huser
  · rcases h.effect.files with hfiles | huser
    · exact .inr ⟨hscheduler,hfiles⟩
    · exact .inl huser
  · exact .inl huser

theorem LineStep.unprivileged {s t : State} {c : CommandLine} (h : LineStep s c t) (hguest : s.user = .guest) :
    t.scheduler = c.tasks ∧ NamesKept s.files t.files := by
  rcases h.privileged with huser | hkept
  · rw [hguest] at huser
    cases huser
  · exact hkept

/-- In a run of lines from a guest session none of which asks for root, every line runs to its
end, no line touches the tasks, and every file name of the start is there in every state
reached.  In any session at all, a line that touches the tasks or loses a file runs as root. -/
theorem guest_cannot_delete_or_kill {s : State} {path : List (CommandLine × State)} (hguest : s.user = .guest)
    (hrun : Runs.Along LineStep s path) (hlines : ∀ e ∈ path, ¬ AsksForRoot e.1.line) :
    NamesKept s.files (Runs.final s path).files ∧
    Runs.Along (fun _ c t => t.scheduler = c.tasks ∧ NamesKept s.files t.files ∧ t.user = .guest) s path ∧
    (∀ c, ∃ t, LineStep (Runs.final s path) c t) ∧
    ∀ u c t, LineStep u c t → (t.scheduler ≠ c.tasks ∨ ¬ NamesKept u.files t.files) → u.user = .enos := by
  -- the induction is on the run, for the names of any earlier state
  have hkept : ∀ files, NamesKept files s.files →
      NamesKept files (Runs.final s path).files ∧ (Runs.final s path).user = .guest ∧
      Runs.Along (fun _ c t => t.scheduler = c.tasks ∧ NamesKept files t.files ∧ t.user = .guest) s path := by
    intro files hfiles
    induction path generalizing s with
    | nil => exact ⟨hfiles,hguest,trivial⟩
    | cons e path ih =>
      have hfirst := LineStep.unprivileged hrun.1 hguest
      have hstays := LineStep.guest hrun.1 hguest (hlines e (by simp))
      have hnames := hfiles.trans hfirst.2
      have hrest := ih hstays hrun.2 (fun e he => hlines e (List.mem_cons_of_mem _ he)) hnames
      exact ⟨hrest.1,hrest.2.1,⟨hfirst.1,hnames,hstays⟩,hrest.2.2⟩
  obtain ⟨hnames,hstays,halong⟩ := hkept s.files (.refl _)
  refine ⟨hnames,halong,lineStep_guest hstays,?_⟩
  intro u c t hstep hchange
  rcases hstep.privileged with huser | ⟨hscheduler,hfiles⟩
  · exact huser
  · rcases hchange with hchange | hchange
    · exact absurd hscheduler hchange
    · exact absurd hfiles hchange

def guestSession : State where
  inputBuffer := []
  keyboard := ⟨false,false,false⟩
  history := .new
  user := .guest
  files := [⟨"a",""⟩]
  scheduler := .new
  output := []

/-- A guest who types `rm a` and then `kill 1`. -/
theorem guest_cannot_delete_or_kill_twoLines : ∃ t u,
    LineStep guestSession ⟨"rm a".toList,0,.new⟩ t ∧ LineStep t ⟨"kill 1".toList,0,.new⟩ u ∧
    u.scheduler = .new ∧ ∃ kept ∈ u.files, kept.name = "a" := by
  obtain ⟨t,hfirst⟩ := lineStep_guest (s := guestSession) rfl ⟨"rm a".toList,0,.new⟩
  have hrm : ¬ AsksForRoot "rm a".toList := by decide
  have hkill : ¬ AsksForRoot "kill 1".toList := by decide
  obtain ⟨u,hsecond⟩ := lineStep_guest (hfirst.guest rfl hrm) ⟨"kill 1".toList,0,.new⟩
  have hrun : Runs.Along LineStep guestSession
      [(⟨"rm a".toList,0,.new⟩,t),(⟨"kill 1".toList,0,.new⟩,u)] := ⟨hfirst,hsecond,trivial⟩
  obtain ⟨hnames,halong,-,-⟩ := guest_cannot_delete_or_kill rfl hrun (by simpa using ⟨hrm,hkill⟩)
  exact ⟨t,u,hfirst,hsecond,halong.2.1.1,hnames ⟨"a",""⟩ (by simp [guestSession])⟩

end Shell
end EnosKernel
