import EnosKernel.LineEditor
import EnosKernel.RamFsRefinement

/-! The two ways in which commands take a line apart.  `touch`, `cat` and `rm` look for the
second word; `write` cuts the line at its first two blanks, which is the same only when
one blank stands behind the command. -/
namespace EnosKernel
namespace Shell

open RustStr

/-- What follows the first `k` words, without the whitespace in front of it. -/
def afterWords : ℕ → List Char → List Char
  | 0, text => trimStart text
  | k+1, text => afterWords k ((trimStart text).dropWhile fun c => !isWhitespace c)

/-- The amount of whitespace between the first word and the second. -/
def firstGap (text : List Char) : ℕ :=
  (((trimStart text).dropWhile fun c => !isWhitespace c).takeWhile isWhitespace).length

/-- The text that a `write` line is meant to store. -/
def typedText (commandLine : List Char) : List Char := afterWords 2 commandLine

section Words

variable {gap word rest : List Char} (hgap : ∀ c ∈ gap, isWhitespace c = true)
  (hword : ∀ c ∈ word, isWhitespace c = false) (hne : word ≠ [])
  (hrest : ∀ c, rest.head? = some c → isWhitespace c = true)
include hgap hword hne

theorem trimStart_word : trimStart (gap++(word++rest)) = word++rest := by
  obtain ⟨c,tail,rfl⟩ := List.exists_cons_of_ne_nil hne
  rw [trimStart,List.dropWhile_append_of_pos hgap,List.cons_append,List.dropWhile_cons_of_neg]
  simp [hword c]

theorem takeWhile_gap : (gap++(word++rest)).takeWhile isWhitespace = gap := by
  obtain ⟨c,tail,rfl⟩ := List.exists_cons_of_ne_nil hne
  have hc : ¬ isWhitespace c = true := by simp [hword c]
  rw [List.takeWhile_append_of_pos hgap,List.cons_append,List.takeWhile_cons_of_neg hc,List.append_nil]

include hrest

theorem dropWord : (trimStart (gap++(word++rest))).dropWhile (fun c => !isWhitespace c) = rest := by
  have hall : ∀ c ∈ word, (!isWhitespace c) = true := by simpa using hword
  rw [trimStart_word hgap hword hne,List.dropWhile_append_of_pos hall]
  cases rest with
  | nil => rfl
  | cons d rest => rw [List.dropWhile_cons_of_neg (by simp [hrest d rfl])]

end Words

theorem Printable.whitespace_iff {text : List Char} (h : Printable text) {c : Char} (hc : c ∈ text) :
    isWhitespace c = true ↔ c = ' ' := by
  obtain ⟨hlow,hhigh⟩ := h c hc
  simp only [isWhitespace,Bool.or_eq_true,Bool.and_eq_true,decide_eq_true_eq]
  constructor
  · intro hspace
    by_contra hne
    simp only [hne,false_or] at hspace
    omega
  · simp_all

theorem gap_ne_nil {gap word rest : List Char} (hword : ∀ c ∈ word, isWhitespace c = false)
    (hne : word ≠ []) (hhead : ∀ c, (gap++(word++rest)).head? = some c → isWhitespace c = true) :
    gap ≠ [] := by
  rintro rfl
  obtain ⟨c,tail,rfl⟩ := List.exists_cons_of_ne_nil hne
  have := hhead c rfl
  simp [hword c] at this

theorem eq_blank_cons {gap text : List Char} (hprint : Printable text) (hsub : gap ⊆ text)
    (hgap : ∀ c ∈ gap, isWhitespace c = true) (hne : gap ≠ []) :
    ∃ blanks, gap = ' '::List.replicate blanks ' ' := by
  have hall : ∀ c ∈ gap, c = ' ' := fun c hc => (Printable.whitespace_iff hprint (hsub hc)).mp (hgap c hc)
  obtain ⟨c,tail,rfl⟩ := List.exists_cons_of_ne_nil hne
  refine ⟨tail.length,?_⟩
  rw [hall c (by simp),List.cons_inj_right]
  exact List.eq_replicate_of_mem fun d hd => hall d (List.mem_cons_of_mem _ hd)

theorem writeLine_split {input name : List Char} {more : List (List Char)} (hprint : Printable input)
    (hwords : splitWhitespace input = "write".toList::name::more) (hmore : more ≠ []) :
    ∃ blanks gap, trim input = "write".toList++ ' '::(List.replicate blanks ' '++
        (name++ ' '::(gap++typedText (trim input)))) ∧
      firstGap (trim input) = blanks+1 ∧ name ≠ [] ∧ ' ' ∉ name ∧
      trimStart (gap++typedText (trim input)) = typedText (trim input) := by
  have hline : Printable (trim input) := hprint.sublist (trim_sublist input)
  rw [← splitWhitespace_trim] at hwords
  have hhead := @head_trim input
  generalize trim input = line at *
  obtain ⟨third,others,rfl⟩ := List.exists_cons_of_ne_nil hmore
  obtain ⟨gap₀,rest₁,rfl,hgap₀,hwrite,hne₀,hrest₁,hwords⟩ := splitWhitespace_eq_cons hwords
  obtain ⟨gap₁,rest₂,rfl,hgap₁,hname,hne₁,hrest₂,hwords⟩ := splitWhitespace_eq_cons hwords
  obtain ⟨gap₂,rest₃,rfl,hgap₂,hthird,hne₂,hrest₃,-⟩ := splitWhitespace_eq_cons hwords
  obtain ⟨blanks,rfl⟩ := eq_blank_cons hline (fun c hc => by simp [hc]) hgap₁ (gap_ne_nil hname hne₁ hrest₁)
  obtain ⟨gap,rfl⟩ := eq_blank_cons hline (fun c hc => by simp [hc]) hgap₂ (gap_ne_nil hthird hne₂ hrest₂)
  have htext : typedText (gap₀++("write".toList++(' '::List.replicate blanks ' '++
      (name++(' '::List.replicate gap ' '++(third++rest₃)))))) = third++rest₃ := by
    rw [typedText,afterWords,dropWord hgap₀ hwrite hne₀ hrest₁,afterWords,
      dropWord hgap₁ hname hne₁ hrest₂,afterWords,trimStart_word hgap₂ hthird hne₂]
  have hfirst : gap₀ = [] := by
    cases gap₀ with
    | nil => rfl
    | cons c gap₀ => exact absurd (hgap₀ c (by simp)) (by simp [hhead rfl])
  subst hfirst
  rw [htext]
  refine ⟨blanks,List.replicate gap ' ',rfl,?_,hne₁,fun hblank => ?_,?_⟩
  · rw [firstGap,dropWord hgap₀ hwrite hne₀ hrest₁,takeWhile_gap hgap₁ hname hne₁]
    simp
  · exact absurd (hname ' ' hblank) (by decide)
  · exact trimStart_word (fun c hc => hgap₂ c (List.mem_cons_of_mem _ hc)) hthird hne₂

/-- The pieces `write` works with: with one blank behind the command the name and the text,
with more an empty name. -/
theorem commandWrite_split {s : State} {line name gap text : List Char} {blanks : ℕ}
    (hline : line = "write".toList++ ' '::(List.replicate blanks ' '++(name++ ' '::(gap++text))))
    (hne : name ≠ []) (hblank : ' ' ∉ name) (htext : trimStart (gap++text) = text) :
    (commandWrite s line).files = if blanks = 0 then
      (RamFs.writeFile (String.ofList name) (String.ofList text) s.files).2 else s.files := by
  have hwrite : ' ' ∉ "write".toList := by decide
  cases blanks with
  | zero =>
    have hparts : splitn 3 ' ' line = ["write".toList,name,gap++text] := by
      rw [hline,splitn_append 1 hwrite,List.replicate_zero,List.nil_append,splitn_append 0 hblank]
      rfl
    have hfilter : (some name).filter (fun name => decide (name ≠ [])) = some name := by simp [hne]
    simp only [commandWrite,hparts,List.getElem?_cons_succ,List.getElem?_cons_zero,hfilter,htext,if_true]
    split <;> rfl
  | succ blanks =>
    have hparts : (splitn 3 ' ' line)[1]? = some [] := by
      have hempty := splitn_append 0 (show ' ' ∉ ([] : List Char) by simp)
        (List.replicate blanks ' '++(name++ ' '::(gap++text)))
      rw [hline,splitn_append 1 hwrite,List.replicate_succ,List.cons_append]
      exact congrArg (fun parts => (("write".toList)::parts)[1]?) hempty
    simp only [commandWrite,hparts]
    rfl

theorem evaluateCommand_write {s : State} {words : List (List Char)} (heapOffset : ℕ)
    (hwords : splitWhitespace s.inputBuffer = "write".toList::words) :
    ∃ history, evaluateCommand heapOffset s = .ok (commandWrite
      { s with inputBuffer := [], history := history } (trim s.inputBuffer)).printPrompt := by
  rw [← splitWhitespace_trim] at hwords
  have hline : trim s.inputBuffer ≠ [] := by
    intro hnil
    simp [hnil,splitWhitespace] at hwords
  exact ⟨_,by simp [evaluateCommand,hline,hwords,dispatch,bind,Except.bind]; rfl⟩

/-- `write` stores the typed text in the named file, and touches no other, exactly when one blank
stands between the command and the name and the text is not too large, or when the file holds
that text already. -/
theorem write_stores_iff {s : State} (heapOffset : ℕ) {name : List Char} {more : List (List Char)}
    {old : String} (hprint : Printable s.inputBuffer)
    (hwords : splitWhitespace s.inputBuffer = "write".toList::name::more) (hmore : more ≠ [])
    (hfile : RamFs.readFile (String.ofList name) s.files = .ok old) :
    ∃ t, evaluateCommand heapOffset s = .ok t ∧
      ((RamFs.readFile (String.ofList name) t.files =
          .ok (String.ofList (typedText (trim s.inputBuffer))) ∧
        ∀ other, other ≠ String.ofList name → RamFs.readFile other t.files = RamFs.readFile other s.files) ↔
      (firstGap (trim s.inputBuffer) = 1 ∧
        (String.ofList (typedText (trim s.inputBuffer))).utf8ByteSize ≤ RamFs.maxFileSize) ∨
      old = String.ofList (typedText (trim s.inputBuffer))) := by
  obtain ⟨history,heval⟩ := evaluateCommand_write heapOffset hwords
  obtain ⟨blanks,gap,hline,hgap,hne,hblank,htext⟩ := writeLine_split hprint hwords hmore
  refine ⟨_,heval,?_⟩
  have hfiles := commandWrite_split (s := { s with inputBuffer := [], history := history }) hline hne
    hblank htext
  change (commandWrite _ _).printPrompt.files = _ at hfiles
  simp only [hfiles,hgap]
  generalize String.ofList (typedText (trim s.inputBuffer)) = text
  by_cases hstored : blanks = 0 ∧ text.utf8ByteSize ≤ RamFs.maxFileSize
  · obtain ⟨rfl,hsize⟩ := hstored
    refine iff_of_true ⟨?_,fun other hother => ?_⟩ (Or.inl ⟨rfl,hsize⟩)
    · exact RamFs.readFile_writeFile hfile hsize
    · exact RamFs.readFile_writeFile_of_ne hfile hother
  · have hkept : (if blanks = 0 then (RamFs.writeFile (String.ofList name) text s.files).2 else s.files) =
        s.files := by
      split_ifs with hzero
      · rw [RamFs.writeFile,if_pos (not_le.mp fun hsize => hstored ⟨hzero,hsize⟩)]
      · rfl
    have hnot : ¬ (blanks+1 = 1 ∧ text.utf8ByteSize ≤ RamFs.maxFileSize) :=
      fun h => hstored ⟨Nat.succ.inj h.1,h.2⟩
    simp only [hkept,hfile,hnot,false_or,Except.ok.injEq,implies_true,and_true]

def atLine (line : String) : State :=
  { State.boot Scheduler.TaskManager.new with inputBuffer := line.toList, files := [⟨"notes",""⟩] }

theorem write_stores_atLine : ∃ t, evaluateCommand 0 (atLine "write notes hello  world") = .ok t ∧
    RamFs.readFile "notes" t.files = .ok "hello  world" := by
  obtain ⟨t,heval,hiff⟩ := @write_stores_iff (atLine "write notes hello  world") 0 "notes".toList
    ["hello".toList,"world".toList] "" (by decide) (by decide) (by decide) (by decide)
  exact ⟨t,heval,(hiff.mpr (Or.inl (by decide))).1⟩

/-- With two blanks behind the command nothing is stored. -/
theorem write_two_blanks : Printable (atLine "write  notes hello").inputBuffer ∧
    splitWhitespace (atLine "write  notes hello").inputBuffer = ["write".toList,"notes".toList,"hello".toList] ∧
    typedText (trim (atLine "write  notes hello").inputBuffer) = "hello".toList ∧
    (evaluateCommand 0 (atLine "write  notes hello")).map (fun t => RamFs.readFile "notes" t.files) =
      .ok (.ok "") := by
  refine ⟨by decide,by decide,by decide,?_⟩
  decide +kernel

end Shell
end EnosKernel
