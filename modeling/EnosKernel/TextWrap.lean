import Mathlib.Tactic

/-! Text on a roll of rows of a given width.  A full row is left only when the next character
arrives, so a line that fills its row exactly takes one row.  Writing character by
character gives the rows that splitting the whole text gives. -/
namespace EnosKernel
namespace TextWrap

variable {α : Type*}

def wrapLine (width : ℕ) (line : List α) : List (List α) :=
  if _h : line.length ≤ width ∨ width = 0 then [line]
  else line.take width::wrapLine width (line.drop width)
termination_by line.length
decreasing_by
  simp only [List.length_drop]
  omega

theorem wrapLine_short {width : ℕ} {line : List α} (h : line.length ≤ width) :
    wrapLine width line = [line] := by
  rw [wrapLine,dif_pos (Or.inl h)]

theorem wrapLine_long {width : ℕ} {row rest : List α} (hrow : row.length = width) (hwidth : 0 < width)
    (hrest : rest ≠ []) : wrapLine width (row++rest) = row::wrapLine width rest := by
  have hpos := List.length_pos_iff.mpr hrest
  rw [wrapLine,dif_neg (by simp only [List.length_append]; omega),List.take_left' hrow,List.drop_left' hrow]

/-- The rows of a text whose lines end at `newline`. -/
def wrap [DecidableEq α] (width : ℕ) (newline : α) (text : List α) : List (List α) :=
  (text.splitOn newline).flatMap (wrapLine width)

/-- The rows written so far; the last one is still being written. -/
structure Roll (α : Type*) where
  above : List (List α)
  current : List α

namespace Roll

def blank : Roll α where
  above := []
  current := []

def rows (p : Roll α) : List (List α) := p.above++[p.current]

def newLine (p : Roll α) : Roll α where
  above := p.above++[p.current]
  current := []

def put (width : ℕ) (p : Roll α) (a : α) : Roll α :=
  if width ≤ p.current.length then ⟨p.above++[p.current],[a]⟩ else ⟨p.above,p.current++[a]⟩

/-- Take back the last character of the current row, if it has one. -/
def erase (p : Roll α) : Roll α where
  above := p.above
  current := p.current.dropLast

theorem erase_of_nil {p : Roll α} (h : p.current = []) : p.erase = p := by
  cases p
  simp_all [erase]

def Fits (width : ℕ) (p : Roll α) : Prop := ∀ row ∈ p.rows, row.length ≤ width

theorem fits_iff {width : ℕ} {p : Roll α} :
    p.Fits width ↔ (∀ row ∈ p.above, row.length ≤ width) ∧ p.current.length ≤ width := by
  simp [Fits,rows,or_imp,forall_and]

theorem Fits.current {width : ℕ} {p : Roll α} (h : p.Fits width) : p.current.length ≤ width :=
  (fits_iff.mp h).2

theorem fits_blank (width : ℕ) : (blank : Roll α).Fits width := by simp [Fits,rows,blank]

theorem Fits.newLine {width : ℕ} {p : Roll α} (h : p.Fits width) : p.newLine.Fits width := by
  simpa [fits_iff,Roll.newLine,or_imp,forall_and] using fits_iff.mp h

/-- The row `k` places above the current one; blank above the first one. -/
def fromBottom (p : Roll α) (k : ℕ) : List α := p.rows.reverse[k]?.getD []

theorem rows_reverse (p : Roll α) : p.rows.reverse = p.current::p.above.reverse := by simp [rows]

@[simp] theorem fromBottom_zero (p : Roll α) : p.fromBottom 0 = p.current := by
  simp [fromBottom,rows_reverse]

@[simp] theorem fromBottom_blank (k : ℕ) : (blank : Roll α).fromBottom k = [] := by
  cases k <;> simp [fromBottom,rows,blank]

theorem fromBottom_succ (p : Roll α) (k : ℕ) : p.fromBottom (k+1) = p.above.reverse[k]?.getD [] := by
  simp [fromBottom,rows_reverse]

@[simp] theorem fromBottom_newLine (p : Roll α) (k : ℕ) : p.newLine.fromBottom (k+1) = p.fromBottom k := by
  rw [fromBottom_succ,fromBottom,rows_reverse]
  simp [newLine]

theorem Fits.fromBottom {width : ℕ} {p : Roll α} (h : p.Fits width) (k : ℕ) : (p.fromBottom k).length ≤ width := by
  unfold Roll.fromBottom
  cases hrow : p.rows.reverse[k]? with
  | none => simp
  | some row => exact h row (List.mem_reverse.mp (List.mem_of_getElem? hrow))

/-- The roll holds the text: every row but the last is full. -/
structure Holds (width : ℕ) (p : Roll α) (text : List α) : Prop where
  full : ∀ row ∈ p.above, row.length = width
  room : p.current.length ≤ width
  text : p.above.flatten++p.current = text

namespace Holds

variable {width : ℕ} {p : Roll α} {text : List α}

theorem blank (width : ℕ) : (blank : Roll α).Holds width [] := ⟨by simp [Roll.blank],by simp [Roll.blank],rfl⟩

theorem put (h : p.Holds width text) (hwidth : 0 < width) (a : α) : (p.put width a).Holds width (text++[a]) := by
  have htext := h.text
  unfold Roll.put
  split_ifs with hfull
  · refine ⟨?_,hwidth,by simp [← htext]⟩
    intro row hrow
    rcases List.mem_append.mp hrow with hrow | hrow
    · exact h.full row hrow
    · rw [List.mem_singleton.mp hrow]
      exact le_antisymm h.room hfull
  · exact ⟨h.full,by simp; omega,by simp [← htext]⟩

theorem erase (h : p.Holds width text) (hne : p.current ≠ []) : p.erase.Holds width text.dropLast := by
  have hroom := h.room
  refine ⟨h.full,by simp [Roll.erase]; omega,?_⟩
  rw [← h.text,List.dropLast_append_of_ne_nil hne]
  rfl

theorem puts (h : p.Holds width text) (hwidth : 0 < width) (more : List α) :
    (more.foldl (Roll.put width) p).Holds width (text++more) := by
  induction more generalizing p text with
  | nil => simpa using h
  | cons a more ih =>
    have hrest := ih (h.put hwidth a)
    rwa [List.append_assoc] at hrest

/-- Taking back more characters than the current row has stops at its start. -/
theorem erases (h : p.Holds width text) (n : ℕ) :
    (Roll.erase^[n] p).Holds width (text.take (text.length-min n p.current.length)) := by
  induction n generalizing p text with
  | zero => simpa using h
  | succ n ih =>
    rw [Function.iterate_succ_apply]
    by_cases hempty : p.current = []
    · have hrest := ih h
      rw [erase_of_nil hempty]
      simpa [hempty] using hrest
    · have hrest := ih (h.erase hempty)
      have hpos := List.length_pos_iff.mpr hempty
      have hlength := congrArg List.length h.text
      simp only [List.length_append] at hlength
      have htake : text.dropLast.take (text.dropLast.length-min n p.erase.current.length) =
          text.take (text.length-min (n+1) p.current.length) := by
        rw [List.dropLast_eq_take,List.take_take]
        congr 1
        simp only [Roll.erase,List.length_take,List.length_dropLast]
        omega
      rwa [htake] at hrest

theorem length_ge (h : p.Holds width text) : p.above.length*width ≤ text.length := by
  have hflatten : p.above.flatten.length = p.above.length*width := by
    rw [List.length_flatten,List.sum_eq_card_nsmul _ width,List.length_map,smul_eq_mul]
    intro n hn
    obtain ⟨row,hrow,rfl⟩ := List.mem_map.mp hn
    exact h.full row hrow
  rw [← h.text,List.length_append,hflatten]
  omega

end Holds

variable [DecidableEq α]

def write (width : ℕ) (newline : α) (p : Roll α) (a : α) : Roll α :=
  if a = newline then p.newLine else p.put width a

end Roll

section Splitting

variable [DecidableEq α] {width : ℕ} {newline : α}

theorem splitOn_append {front : List α} (hfront : newline ∉ front) (rest : List α) :
    (front++rest).splitOn newline = (rest.splitOn newline).modifyHead (front++·) := by
  induction front with
  | nil =>
    rw [List.nil_append]
    cases rest.splitOn newline <;> rfl
  | cons a front ih =>
    have ha : a ≠ newline := fun he => hfront (by simp [he])
    have hrest := ih fun hmem => hfront (List.mem_cons_of_mem _ hmem)
    simp only [List.splitOn] at *
    rw [List.cons_append,List.splitOnP_cons_eq_if_modifyHead]
    simp [ha,hrest,Function.comp_def]

theorem wrap_short {row : List α} (hrow : newline ∉ row) (hlength : row.length ≤ width) :
    wrap width newline row = [row] := by
  have hsplit : row.splitOn newline = [row] := by
    have happend := splitOn_append hrow []
    simpa using happend
  simp [wrap,hsplit,wrapLine_short hlength]

theorem wrap_newline {row : List α} (hrow : newline ∉ row) (hlength : row.length ≤ width) (rest : List α) :
    wrap width newline (row++newline::rest) = row::wrap width newline rest := by
  have hsplit : (row++newline::rest).splitOn newline = row::rest.splitOn newline := by
    rw [splitOn_append hrow]
    simp [List.splitOn,List.splitOnP_cons_eq_if_modifyHead]
  simp [wrap,hsplit,wrapLine_short hlength]

theorem wrap_full {row : List α} (hrow : newline ∉ row) (hlength : row.length = width) (hwidth : 0 < width)
    {a : α} (ha : a ≠ newline) (rest : List α) :
    wrap width newline (row++a::rest) = row::wrap width newline (a::rest) := by
  obtain ⟨line,lines,hlines⟩ : ∃ line lines, rest.splitOn newline = line::lines :=
    List.exists_cons_of_ne_nil (List.splitOnP_ne_nil _ _)
  have hsplit : (a::rest).splitOn newline = (a::line)::lines := by
    have hsingle := splitOn_append (show newline ∉ [a] by simpa using Ne.symm ha) rest
    simpa [hlines] using hsingle
  simp only [wrap,splitOn_append hrow,hsplit,List.modifyHead_cons,List.flatMap_cons]
  rw [wrapLine_long hlength hwidth (by simp)]
  rfl

theorem rows_foldl_write (hwidth : 0 < width) (text : List α) {p : Roll α} (hcurrent : newline ∉ p.current)
    (hlength : p.current.length ≤ width) :
    (text.foldl (Roll.write width newline) p).rows = p.above++wrap width newline (p.current++text) := by
  induction text generalizing p with
  | nil => simp [Roll.rows,wrap_short hcurrent hlength]
  | cons a text ih =>
    rw [List.foldl_cons]
    by_cases ha : a = newline
    · subst ha
      rw [Roll.write,if_pos rfl,ih (by simp [Roll.newLine]) (by simp [Roll.newLine]),
        wrap_newline hcurrent hlength]
      simp [Roll.newLine]
    · rw [Roll.write,if_neg ha,Roll.put]
      split_ifs with hfull
      · rw [ih (by simpa using Ne.symm ha) (by simp; omega),wrap_full hcurrent (by omega) hwidth ha]
        simp
      · rw [ih (by simp [hcurrent,Ne.symm ha]) (by simp; omega)]
        simp

/-- A text written on a blank roll stands there split into lines and rows. -/
theorem rows_write_blank (hwidth : 0 < width) (text : List α) :
    (text.foldl (Roll.write width newline) .blank).rows = wrap width newline text := by
  simpa [Roll.blank] using rows_foldl_write hwidth text (p := .blank) (by simp [Roll.blank])
    (by simp [Roll.blank])

end Splitting
end TextWrap
end EnosKernel
