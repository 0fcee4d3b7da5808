import EnosKernel.TextWrap
import EnosKernel.VgaWriter
import Mathlib.Data.List.DropRight

/-! What the screen shows.  The writer works on the bottom row of a roll of rows: the
cell-by-cell scroll pushes every row one place up, and the screen is the window on the
last 25 rows. -/
namespace EnosKernel
namespace Vga

open ForLoop TextWrap

namespace Buffer

/-- The cell at a place; outside the buffer its value is of no account. -/
def cell (b : Buffer) (row col : ℕ) : ScreenChar := (b.chars[row]?.bind (·[col]?)).getD ⟨0,0⟩

theorem read_ok (b : Buffer) {row col : ℕ} (hrow : row < bufferHeight) (hcol : col < bufferWidth) :
    b.read row col = .ok (b.cell row col) := by
  simp [read,cell,hrow,hcol]

theorem write_ok (b : Buffer) {row col : ℕ} (c : ScreenChar) (hrow : row < bufferHeight)
    (hcol : col < bufferWidth) : ∃ next, b.write row col c = .ok next ∧
      ∀ i j, next.cell i j = if i = row ∧ j = col then c else b.cell i j := by
  refine ⟨_,by rw [write,dif_pos hrow,dif_pos hcol],?_⟩
  intro i j
  by_cases hi : i = row
  · subst hi
    by_cases hj : j = col
    · subst hj
      simp [cell,hrow,hcol]
    · simp [cell,hrow,hj,Vector.getElem?_set_ne _ (Ne.symm hj)]
  · simp [cell,hi,Vector.getElem?_set_ne _ (Ne.symm hi)]

theorem ext_cell {a b : Buffer} (h : ∀ i < bufferHeight, ∀ j < bufferWidth, a.cell i j = b.cell i j) : a = b := by
  cases a
  cases b
  congr 1
  apply Vector.ext
  intro i hi
  apply Vector.ext
  intro j hj
  have hcell := h i hi j hj
  simpa [cell,hi,hj] using hcell

theorem copyRow_ok (b : Buffer) {row : ℕ} (hpos : 1 ≤ row) (hrow : row < bufferHeight) :
    ∃ next, forRange 0 bufferWidth (fun col buffer => do
        let character ← buffer.read row col
        buffer.write (row-1) col character) b = .ok next ∧
      ∀ i j, next.cell i j = if i = row-1 ∧ j < bufferWidth then b.cell row j else b.cell i j := by
  refine forRange_ok (P := fun n (buffer : Buffer) => ∀ i j, buffer.cell i j =
    if i = row-1 ∧ j < n then b.cell row j else b.cell i j) (Nat.zero_le _) (by simp) ?_
  intro col buffer _ hcol hbuffer
  obtain ⟨next,hwrite,hnext⟩ := buffer.write_ok (buffer.cell row col) (show row-1 < bufferHeight by omega) hcol
  refine ⟨next,by rw [buffer.read_ok hrow hcol,MachineArith.ok_bind,hwrite],?_⟩
  intro i j
  have hsource : buffer.cell row col = b.cell row col := by
    rw [hbuffer,if_neg (by omega)]
  rw [hnext,hsource,hbuffer]
  by_cases hi : i = row-1
  · by_cases hj : j = col
    · simp [hi,hj]
    · have hiff : j < col+1 ↔ j < col := by omega
      simp [hi,hj,hiff]
  · simp [hi]

theorem scroll_ok (b : Buffer) : ∃ next, forRange 1 bufferHeight (fun row buffer =>
      forRange 0 bufferWidth (fun col buffer => do
        let character ← buffer.read row col
        buffer.write (row-1) col character) buffer) b = .ok next ∧
    ∀ i, ∀ j < bufferWidth, next.cell i j = if i+1 < bufferHeight then b.cell (i+1) j else b.cell i j := by
  refine forRange_ok (P := fun n (buffer : Buffer) => ∀ i, ∀ j < bufferWidth, buffer.cell i j =
    if i+1 < n then b.cell (i+1) j else b.cell i j) (show 1 ≤ bufferHeight by decide) (by simp) ?_
  intro row buffer hpos hrow hbuffer
  obtain ⟨next,hcopy,hnext⟩ := buffer.copyRow_ok hpos hrow
  refine ⟨next,hcopy,?_⟩
  intro i j hj
  -- row `row` has not been written yet when it is copied
  have hsource : buffer.cell row j = b.cell row j := by
    rw [hbuffer row j hj,if_neg (by omega)]
  rw [hnext,hsource,hbuffer i j hj]
  by_cases hi : i = row-1
  · subst hi
    rw [if_pos ⟨rfl,hj⟩,if_pos (by omega),show row-1+1 = row by omega]
  · rw [if_neg (by simp [hi])]
    have hiff : i+1 < row+1 ↔ i+1 < row := by omega
    simp only [hiff]

end Buffer

namespace Writer

theorem clearRow_ok (w : Writer) {row : ℕ} (hrow : row < bufferHeight) :
    ∃ buffer, w.clearRow row = .ok { w with buffer := buffer } ∧
      ∀ i, ∀ j < bufferWidth, buffer.cell i j = if i = row then w.blank else w.buffer.cell i j := by
  have hloop : ∃ last, forRange 0 bufferWidth (fun col buffer => buffer.write row col w.blank) w.buffer = .ok last ∧
      ∀ i j, last.cell i j = if i = row ∧ j < bufferWidth then w.blank else w.buffer.cell i j := by
    refine forRange_ok (P := fun n (buffer : Buffer) => ∀ i j, buffer.cell i j =
      if i = row ∧ j < n then w.blank else w.buffer.cell i j) (Nat.zero_le _) (by simp) ?_
    intro col buffer _ hcol hbuffer
    obtain ⟨next,hwrite,hnext⟩ := buffer.write_ok w.blank hrow hcol
    refine ⟨next,hwrite,?_⟩
    intro i j
    rw [hnext,hbuffer]
    by_cases hj : j = col
    · by_cases hi : i = row <;> simp [hi,hj]
    · have hiff : j < col+1 ↔ j < col := by omega
      simp [hj,hiff]
  obtain ⟨buffer,hwrites,hbuffer⟩ := hloop
  refine ⟨buffer,by rw [clearRow,hwrites,MachineArith.ok_bind],?_⟩
  intro i j hj
  rw [hbuffer]
  simp [hj]

theorem newLine_ok (w : Writer) : ∃ buffer, w.newLine = .ok { w with buffer := buffer, columnPosition := 0 } ∧
    ∀ i, ∀ j < bufferWidth, buffer.cell i j =
      if i = bufferHeight-1 then w.blank
      else if i+1 < bufferHeight then w.buffer.cell (i+1) j else w.buffer.cell i j := by
  obtain ⟨scrolled,hscroll,hscrolled⟩ := w.buffer.scroll_ok
  obtain ⟨cleared,hclear,hcleared⟩ := clearRow_ok { w with buffer := scrolled }
    (show bufferHeight-1 < bufferHeight by decide)
  refine ⟨cleared,by rw [newLine,hscroll,MachineArith.ok_bind,hclear,MachineArith.ok_bind],?_⟩
  intro i j hj
  rw [hcleared i j hj,hscrolled i j hj]
  rfl

end Writer

/-- The byte that `write_string` writes for a byte of the string. -/
def glyph (byte : UInt8) : UInt8 :=
  if (0x20 ≤ byte ∧ byte ≤ 0x7e) ∨ byte = 0x0a then byte else 0xfe

theorem glyph_eq_newline_iff (byte : UInt8) : glyph byte = 0x0a ↔ byte = 0x0a := by
  unfold glyph
  split_ifs with hshown
  · rfl
  · have hother : byte ≠ 0x0a := fun h => hshown (Or.inr h)
    simp [hother]

/-- What one byte of a string does to the roll. -/
def feed (p : Roll UInt8) (byte : UInt8) : Roll UInt8 :=
  if byte = 0x08 then p.erase else p.write bufferWidth 0x0a (glyph byte)

/-- A relation between the writer and the roll that every primitive of the writer keeps. -/
structure Follows (R : Writer → Roll UInt8 → Prop) : Prop where
  column : ∀ {w p}, R w p → w.columnPosition = p.current.length
  newLine : ∀ {w p}, R w p → ∃ next, w.newLine = .ok next ∧ R next p.newLine
  append : ∀ {w p}, R w p → ∀ byte, p.current.length < bufferWidth →
    ∃ buffer, w.buffer.write (bufferHeight-1) w.columnPosition ⟨byte,w.colorCode⟩ = .ok buffer ∧
      MachineArith.add 32 w.columnPosition 1 = .ok (w.columnPosition+1) ∧
      R { w with buffer := buffer, columnPosition := w.columnPosition+1 } ⟨p.above,p.current++[byte]⟩
  backspace : ∀ {w p}, R w p → ∃ next, w.backspace = .ok next ∧ R next p.erase
  updateCursor : ∀ {w p}, R w p → R w.updateCursor p

namespace Follows

variable {R : Writer → Roll UInt8 → Prop} {w : Writer} {p : Roll UInt8}

theorem writeByte (f : Follows R) (h : R w p) (byte : UInt8) :
    ∃ next, w.writeByte byte = .ok next ∧ R next (p.write bufferWidth 0x0a byte) := by
  have hcolumn := f.column h
  by_cases hline : byte = 0x0a
  · simp only [Writer.writeByte,Roll.write,if_pos hline]
    exact f.newLine h
  · simp only [Writer.writeByte,Roll.write,if_neg hline,Roll.put]
    by_cases hfull : bufferWidth ≤ w.columnPosition
    · obtain ⟨fresh,hnew,hfresh⟩ := f.newLine h
      obtain ⟨buffer,hwrite,hadd,hnext⟩ := f.append hfresh byte (by simp [Roll.newLine])
      refine ⟨{ fresh with buffer := buffer, columnPosition := fresh.columnPosition+1 },?_,?_⟩
      · rw [if_pos hfull,hnew,MachineArith.ok_bind,hwrite,MachineArith.ok_bind,hadd,MachineArith.ok_bind]
      · rw [if_pos (hcolumn ▸ hfull)]
        exact hnext
    · obtain ⟨buffer,hwrite,hadd,hnext⟩ := f.append h byte (by rw [← hcolumn]; omega)
      refine ⟨{ w with buffer := buffer, columnPosition := w.columnPosition+1 },?_,?_⟩
      · rw [if_neg hfull,MachineArith.ok_bind,hwrite,MachineArith.ok_bind,hadd,MachineArith.ok_bind]
      · rw [if_neg (hcolumn ▸ hfull)]
        exact hnext

theorem putByte (f : Follows R) (h : R w p) (byte : UInt8) :
    ∃ next, w.putByte byte = .ok next ∧ R next (feed p byte) := by
  unfold Writer.putByte feed glyph
  split_ifs
  · exact f.backspace h
  · exact f.writeByte h byte
  · exact f.writeByte h 0xfe

theorem putBytes (f : Follows R) (h : R w p) (bytes : List UInt8) :
    ∃ next, bytes.foldlM Writer.putByte w = .ok next ∧ R next (bytes.foldl feed p) := by
  induction bytes generalizing w p with
  | nil => exact ⟨w,rfl,h⟩
  | cons byte bytes ih =>
    obtain ⟨first,hfirst,hr⟩ := f.putByte h byte
    obtain ⟨next,hrest,hnext⟩ := ih hr
    exact ⟨next,by rw [List.foldlM_cons,hfirst]; exact hrest,hnext⟩

/-- No string makes the writer panic, and the screen follows the roll. -/
theorem writeString (f : Follows R) (h : R w p) (s : List Char) :
    ∃ next, w.writeString s = .ok next ∧ R next ((RustStr.bytes s).foldl feed p) := by
  obtain ⟨next,hbytes,hnext⟩ := f.putBytes h (RustStr.bytes s)
  exact ⟨next.updateCursor,by rw [Writer.writeString,hbytes,MachineArith.ok_bind],f.updateCursor hnext⟩

theorem writeStrings (f : Follows R) (h : R w p) (strings : List (List Char)) :
    ∃ next, strings.foldlM Writer.writeString w = .ok next ∧
      R next ((strings.flatMap RustStr.bytes).foldl feed p) := by
  induction strings generalizing w p with
  | nil => exact ⟨w,rfl,h⟩
  | cons s strings ih =>
    obtain ⟨first,hfirst,hr⟩ := f.writeString h s
    obtain ⟨next,hrest,hnext⟩ := ih hr
    refine ⟨next,by rw [List.foldlM_cons,hfirst]; exact hrest,?_⟩
    rw [List.flatMap_cons,List.foldl_append]
    exact hnext

end Follows

/-- The writer stands at the end of the current row, and the screen is the window on the
last rows, each filled up with blanks. -/
structure Shows (color : ColorCode) (w : Writer) (p : Roll UInt8) : Prop where
  fits : p.Fits bufferWidth
  column : w.columnPosition = p.current.length
  colored : w.colorCode = color
  screen : ∀ i < bufferHeight, ∀ j < bufferWidth,
    w.buffer.cell i j = ⟨(p.fromBottom (bufferHeight-1-i)).getD j 0x20,color⟩

namespace Shows

variable {color : ColorCode} {w : Writer} {p : Roll UInt8}

theorem blank (h : Shows color w p) : w.blank = ⟨0x20,color⟩ := by rw [Writer.blank,h.colored]

theorem newLine (h : Shows color w p) : ∃ next, w.newLine = .ok next ∧ Shows color next p.newLine := by
  obtain ⟨buffer,hnew,hbuffer⟩ := w.newLine_ok
  refine ⟨_,hnew,h.fits.newLine,rfl,h.colored,?_⟩
  intro i hi j hj
  rw [hbuffer i j hj]
  by_cases hlast : i = bufferHeight-1
  · rw [if_pos hlast,hlast,Nat.sub_self,Roll.fromBottom_zero]
    exact h.blank
  · obtain ⟨k,hk⟩ : ∃ k, bufferHeight-1-i = k+1 := ⟨bufferHeight-2-i,by omega⟩
    rw [if_neg hlast,if_pos (by omega),h.screen (i+1) (by omega) j hj,hk,
      Roll.fromBottom_newLine,show bufferHeight-1-(i+1) = k by omega]

theorem setCurrent (h : Shows color w p) (col : ℕ) (byte : UInt8) (current : List UInt8)
    (hcol : col < bufferWidth) (hlength : current.length ≤ bufferWidth)
    (hcells : ∀ j < bufferWidth, current.getD j 0x20 = if j = col then byte else p.current.getD j 0x20) :
    ∃ buffer, w.buffer.write (bufferHeight-1) col ⟨byte,color⟩ = .ok buffer ∧
      Shows color { w with buffer := buffer, columnPosition := current.length } ⟨p.above,current⟩ := by
  obtain ⟨buffer,hwrite,hbuffer⟩ := w.buffer.write_ok ⟨byte,color⟩
    (show bufferHeight-1 < bufferHeight by decide) hcol
  refine ⟨buffer,hwrite,Roll.fits_iff.mpr ⟨(Roll.fits_iff.mp h.fits).1,hlength⟩,rfl,h.colored,?_⟩
  intro i hi j hj
  rw [hbuffer]
  by_cases hlast : i = bufferHeight-1
  · subst hlast
    have hold := h.screen _ hi j hj
    rw [Nat.sub_self,Roll.fromBottom_zero] at hold ⊢
    rw [hold,hcells j hj]
    by_cases hj' : j = col <;> simp [hj']
  · obtain ⟨k,hk⟩ : ∃ k, bufferHeight-1-i = k+1 := ⟨bufferHeight-2-i,by omega⟩
    rw [if_neg fun hat => hlast hat.1,h.screen i hi j hj,hk,Roll.fromBottom_succ,Roll.fromBottom_succ]

theorem append (h : Shows color w p) (byte : UInt8) (hroom : p.current.length < bufferWidth) :
    ∃ buffer, w.buffer.write (bufferHeight-1) w.columnPosition ⟨byte,w.colorCode⟩ = .ok buffer ∧
      MachineArith.add 32 w.columnPosition 1 = .ok (w.columnPosition+1) ∧
      Shows color { w with buffer := buffer, columnPosition := w.columnPosition+1 }
        ⟨p.above,p.current++[byte]⟩ := by
  have hcells : ∀ j < bufferWidth, (p.current++[byte]).getD j 0x20 =
      if j = p.current.length then byte else p.current.getD j 0x20 := by
    intro j _
    rcases lt_trichotomy j p.current.length with hlt | heq | hgt
    · simp [List.getD_eq_getElem?_getD,List.getElem?_append_left hlt,hlt.ne]
    · simp [heq]
    · have hout : (p.current++[byte])[j]? = none := List.getElem?_eq_none (by simp; omega)
      simp [List.getD_eq_getElem?_getD,hout,hgt.ne',List.getElem?_eq_none hgt.le]
  obtain ⟨buffer,hwrite,hshows⟩ := h.setCurrent p.current.length byte (p.current++[byte]) hroom
    (by simpa using hroom) hcells
  rw [List.length_append,List.length_singleton,← h.column] at hshows
  rw [← h.column,← h.colored] at hwrite
  have hwidth : bufferWidth = 80 := rfl
  exact ⟨buffer,hwrite,MachineArith.add_ok (by rw [h.column]; omega),hshows⟩

theorem backspace (h : Shows color w p) : ∃ next, w.backspace = .ok next ∧ Shows color next p.erase := by
  have hfits := h.fits.current
  have hcolumn := h.column
  by_cases hpos : 0 < w.columnPosition
  · have hcells : ∀ j < bufferWidth, p.current.dropLast.getD j 0x20 =
        if j = p.current.length-1 then 0x20 else p.current.getD j 0x20 := by
      intro j _
      rcases lt_trichotomy j (p.current.length-1) with hlt | heq | hgt
      · have hlt' : j < p.current.length := by omega
        simp [List.getD_eq_getElem?_getD,hlt,hlt.ne,hlt']
      · simp [List.getD_eq_getElem?_getD,heq]
      · have hout : p.current[j]? = none := List.getElem?_eq_none (by omega)
        simp [List.getD_eq_getElem?_getD,List.getElem?_dropLast,hout]
    obtain ⟨buffer,hwrite,hshows⟩ := h.setCurrent (p.current.length-1) 0x20 p.current.dropLast (by omega)
      (by simp; omega) hcells
    refine ⟨_,?_,hshows⟩
    have hlength : p.current.dropLast.length = w.columnPosition-1 := by simp [hcolumn]
    rw [← hcolumn] at hwrite
    simp only [Writer.backspace,if_pos hpos,Writer.blank,h.colored,hlength]
    rw [hwrite,MachineArith.ok_bind]
  · have hempty : p.current = [] := List.length_eq_zero_iff.mp (by omega)
    refine ⟨w,if_neg hpos,?_⟩
    rwa [Roll.erase_of_nil hempty]

theorem follows (color : ColorCode) : Follows (Shows color) where
  column := Shows.column
  newLine := Shows.newLine
  append := Shows.append
  backspace := Shows.backspace
  updateCursor := fun h => ⟨h.fits,h.column,h.colored,h.screen⟩

end Shows

/-- The characters of the roll stand on the screen, over whatever the video memory held
before: nothing is said about the cells that were not written. -/
structure Covers (w : Writer) (p : Roll UInt8) : Prop where
  fits : p.Fits bufferWidth
  column : w.columnPosition = p.current.length
  screen : ∀ i < bufferHeight, ∀ j byte, (p.fromBottom (bufferHeight-1-i))[j]? = some byte →
    (w.buffer.cell i j).asciiCharacter = byte

namespace Covers

variable {w : Writer} {p : Roll UInt8}

theorem blank (h : w.columnPosition = 0) : Covers w .blank := by
  refine ⟨Roll.fits_blank _,h,?_⟩
  intro i _ j byte hbyte
  rw [Roll.fromBottom_blank] at hbyte
  cases hbyte

theorem width_lt (h : p.Fits bufferWidth) {k j : ℕ} {byte : UInt8} (hbyte : (p.fromBottom k)[j]? = some byte) :
    j < bufferWidth := by
  have hj : j < (p.fromBottom k).length := (List.getElem?_eq_some_iff.mp hbyte).1
  exact hj.trans_le (h.fromBottom k)

theorem newLine (h : Covers w p) : ∃ next, w.newLine = .ok next ∧ Covers next p.newLine := by
  obtain ⟨buffer,hnew,hbuffer⟩ := w.newLine_ok
  refine ⟨_,hnew,h.fits.newLine,rfl,?_⟩
  intro i hi j byte hbyte
  by_cases hlast : i = bufferHeight-1
  · rw [hlast,Nat.sub_self,Roll.fromBottom_zero] at hbyte
    simp [Roll.newLine] at hbyte
  · obtain ⟨k,hk⟩ : ∃ k, bufferHeight-1-i = k+1 := ⟨bufferHeight-2-i,by omega⟩
    rw [hk,Roll.fromBottom_newLine] at hbyte
    rw [hbuffer i j (width_lt h.fits hbyte),if_neg hlast,if_pos (by omega)]
    exact h.screen (i+1) (by omega) j byte (by rwa [show bufferHeight-1-(i+1) = k by omega])

theorem setCurrent (h : Covers w p) (col : ℕ) (c : ScreenChar) (current : List UInt8) (hcol : col < bufferWidth)
    (hlength : current.length ≤ bufferWidth)
    (hcells : ∀ j byte, current[j]? = some byte →
      if j = col then byte = c.asciiCharacter else p.current[j]? = some byte) :
    ∃ buffer, w.buffer.write (bufferHeight-1) col c = .ok buffer ∧
      Covers { w with buffer := buffer, columnPosition := current.length } ⟨p.above,current⟩ := by
  obtain ⟨buffer,hwrite,hbuffer⟩ := w.buffer.write_ok c (show bufferHeight-1 < bufferHeight by decide) hcol
  refine ⟨buffer,hwrite,Roll.fits_iff.mpr ⟨(Roll.fits_iff.mp h.fits).1,hlength⟩,rfl,?_⟩
  intro i hi j byte hbyte
  rw [hbuffer]
  by_cases hlast : i = bufferHeight-1
  · subst hlast
    rw [Nat.sub_self,Roll.fromBottom_zero] at hbyte
    have hcell := hcells j byte hbyte
    by_cases hj : j = col
    · rw [if_pos hj] at hcell
      rw [if_pos ⟨rfl,hj⟩,hcell]
    · rw [if_neg hj] at hcell
      rw [if_neg fun hat => hj hat.2]
      exact h.screen _ hi j byte (by rwa [Nat.sub_self,Roll.fromBottom_zero])
  · obtain ⟨k,hk⟩ : ∃ k, bufferHeight-1-i = k+1 := ⟨bufferHeight-2-i,by omega⟩
    rw [if_neg fun hat => hlast hat.1]
    refine h.screen i hi j byte ?_
    rw [hk,Roll.fromBottom_succ] at hbyte ⊢
    exact hbyte

theorem append (h : Covers w p) (byte : UInt8) (hroom : p.current.length < bufferWidth) :
    ∃ buffer, w.buffer.write (bufferHeight-1) w.columnPosition ⟨byte,w.colorCode⟩ = .ok buffer ∧
      MachineArith.add 32 w.columnPosition 1 = .ok (w.columnPosition+1) ∧
      Covers { w with buffer := buffer, columnPosition := w.columnPosition+1 } ⟨p.above,p.current++[byte]⟩ := by
  have hcells : ∀ j a, (p.current++[byte])[j]? = some a →
      if j = p.current.length then a = byte else p.current[j]? = some a := by
    intro j a ha
    split_ifs with hj
    · simpa [hj] using ha.symm
    · have hlt := (List.getElem?_eq_some_iff.mp ha).1
      simp only [List.length_append,List.length_singleton] at hlt
      rwa [List.getElem?_append_left (by omega)] at ha
  obtain ⟨buffer,hwrite,hcovers⟩ := h.setCurrent p.current.length ⟨byte,w.colorCode⟩ (p.current++[byte]) hroom
    (by simpa using hroom) hcells
  rw [List.length_append,List.length_singleton,← h.column] at hcovers
  rw [← h.column] at hwrite
  have hwidth : bufferWidth = 80 := rfl
  exact ⟨buffer,hwrite,MachineArith.add_ok (by rw [h.column]; omega),hcovers⟩

theorem backspace (h : Covers w p) : ∃ next, w.backspace = .ok next ∧ Covers next p.erase := by
  have hfits := h.fits.current
  have hcolumn := h.column
  by_cases hpos : 0 < w.columnPosition
  · have hcells : ∀ j a, p.current.dropLast[j]? = some a →
        if j = p.current.length-1 then a = w.blank.asciiCharacter else p.current[j]? = some a := by
      intro j a ha
      have hlt := (List.getElem?_eq_some_iff.mp ha).1
      rw [List.length_dropLast] at hlt
      rw [if_neg (by omega)]
      rwa [List.getElem?_dropLast,if_pos hlt] at ha
    obtain ⟨buffer,hwrite,hcovers⟩ := h.setCurrent (p.current.length-1) w.blank p.current.dropLast (by omega)
      (by simp; omega) hcells
    refine ⟨_,?_,hcovers⟩
    have hlength : p.current.dropLast.length = w.columnPosition-1 := by simp [hcolumn]
    rw [← hcolumn] at hwrite
    simp only [Writer.backspace,if_pos hpos,hlength]
    exact (congrArg (· >>= _) hwrite).trans rfl
  · have hempty : p.current = [] := List.length_eq_zero_iff.mp (by omega)
    refine ⟨w,if_neg hpos,?_⟩
    rwa [Roll.erase_of_nil hempty]

theorem follows : Follows Covers where
  column := Covers.column
  newLine := Covers.newLine
  append := Covers.append
  backspace := Covers.backspace
  updateCursor := fun h => ⟨h.fits,h.column,h.screen⟩

end Covers

theorem Writer.clearScreen_shows (w : Writer) :
    ∃ cleared, w.clearScreen = .ok cleared ∧ Shows w.colorCode cleared .blank := by
  have hloop : ∃ last, forRange 0 bufferHeight (fun row w => Writer.clearRow w row) w = .ok last ∧
      last.colorCode = w.colorCode ∧ ∀ i < bufferHeight, ∀ j < bufferWidth, last.buffer.cell i j = w.blank := by
    refine forRange_ok (P := fun n (v : Writer) => v.colorCode = w.colorCode ∧
      ∀ i < n, ∀ j < bufferWidth, v.buffer.cell i j = w.blank) (Nat.zero_le _) (by simp) ?_
    rintro row v - hrow ⟨hcolor,hblank⟩
    obtain ⟨buffer,hclear,hbuffer⟩ := v.clearRow_ok hrow
    refine ⟨_,hclear,hcolor,?_⟩
    intro i hi j hj
    have hcell : v.blank = w.blank := by rw [Writer.blank,Writer.blank,hcolor]
    rw [hbuffer i j hj,hcell]
    split_ifs with hlast
    · rfl
    · exact hblank i (by omega) j hj
  obtain ⟨last,hclear,hcolor,hblank⟩ := hloop
  refine ⟨Writer.updateCursor { last with columnPosition := 0 },?_,Roll.fits_blank _,rfl,hcolor,?_⟩
  · rw [Writer.clearScreen,hclear,MachineArith.ok_bind]
  intro i hi j hj
  rw [Roll.fromBottom_blank]
  exact hblank i hi j hj

def Buffer.ofRows (color : ColorCode) (rows : List (List UInt8)) : Buffer where
  chars := Vector.ofFn fun i => Vector.ofFn fun j => ⟨(rows.getD i []).getD j 0x20,color⟩

theorem Buffer.cell_ofRows (color : ColorCode) (rows : List (List UInt8)) {i j : ℕ} (hi : i < bufferHeight)
    (hj : j < bufferWidth) : (ofRows color rows).cell i j = ⟨(rows.getD i []).getD j 0x20,color⟩ := by
  simp [ofRows,cell,hi,hj]

theorem getD_rtake (p : Roll UInt8) {i : ℕ} (hi : i < bufferHeight) :
    ((List.replicate 24 []++p.rows).rtake 25).getD i [] = p.fromBottom (bufferHeight-1-i) := by
  have hlength : p.rows.length = p.above.length+1 := by simp [Roll.rows]
  have hheight : bufferHeight = 25 := rfl
  rw [List.rtake,List.getD_eq_getElem?_getD,List.getElem?_drop]
  simp only [List.length_append,List.length_replicate,hlength]
  rw [show 24+(p.above.length+1)-25+i = p.above.length+i by omega]
  by_cases hblank : p.above.length+i < 24
  · have hout : p.rows.reverse[bufferHeight-1-i]? = none :=
      List.getElem?_eq_none (by simp only [List.length_reverse]; omega)
    rw [List.getElem?_append_left (by simpa using hblank),Roll.fromBottom,hout,List.getElem?_replicate,
      if_pos hblank]
    rfl
  · rw [List.getElem?_append_right (by simpa using hblank),Roll.fromBottom,
      List.getElem?_reverse (by omega),List.length_replicate,hlength]
    congr 2
    omega

theorem Shows.buffer_eq {color : ColorCode} {w : Writer} {p : Roll UInt8} (h : Shows color w p) :
    w.buffer = .ofRows color ((List.replicate 24 []++p.rows).rtake 25) := by
  apply Buffer.ext_cell
  intro i hi j hj
  rw [h.screen i hi j hj,Buffer.cell_ofRows _ _ hi hj,getD_rtake p hi]

theorem foldl_feed {bytes : List UInt8} (hfree : 0x08 ∉ bytes) (p : Roll UInt8) :
    bytes.foldl feed p = (bytes.map glyph).foldl (Roll.write bufferWidth 0x0a) p := by
  induction bytes generalizing p with
  | nil => rfl
  | cons byte bytes ih =>
    have hbyte : byte ≠ 0x08 := fun he => hfree (by simp [he])
    rw [List.foldl_cons,List.map_cons,List.foldl_cons,feed,if_neg hbyte]
    exact ih (fun hmem => hfree (List.mem_cons_of_mem _ hmem)) _

/-- After `clear_screen` and any strings without backspaces the screen shows the tail of the
wrapped text, and the writer stands at the end of its last row. -/
theorem screen_shows_wrapped_tail (w : Writer) (strings : List (List Char))
    (hfree : ∀ s ∈ strings, 0x08 ∉ RustStr.bytes s) :
    ∃ cleared next rows, w.clearScreen = .ok cleared ∧
      strings.foldlM Writer.writeString cleared = .ok next ∧
      rows = TextWrap.wrap 80 0x0a ((strings.flatMap RustStr.bytes).map glyph) ∧
      next.buffer = .ofRows w.colorCode ((List.replicate 24 []++rows).rtake 25) ∧
      (∃ last, rows.getLast? = some last ∧ next.columnPosition = last.length) ∧
      next.columnPosition ≤ 80 := by
  obtain ⟨cleared,hclear,hblank⟩ := w.clearScreen_shows
  obtain ⟨next,hwrite,hshows⟩ := (Shows.follows _).writeStrings hblank strings
  have hall : 0x08 ∉ strings.flatMap RustStr.bytes := by simpa [List.mem_flatMap] using hfree
  rw [foldl_feed hall] at hshows
  have hrows : (((strings.flatMap RustStr.bytes).map glyph).foldl (Roll.write bufferWidth 0x0a) .blank).rows =
      TextWrap.wrap 80 0x0a ((strings.flatMap RustStr.bytes).map glyph) :=
    TextWrap.rows_write_blank (by decide) _
  refine ⟨cleared,next,_,hclear,hwrite,rfl,hrows ▸ hshows.buffer_eq,⟨_,?_,hshows.column⟩,?_⟩
  · rw [← hrows]
    simp [Roll.rows]
  · rw [hshows.column]
    exact hshows.fits.current

/-- Two lines on a screen that was never written before. -/
theorem screen_shows_two_lines : ∃ cleared next,
    (Writer.boot ⟨.replicate 25 (.replicate 80 ⟨0,0⟩)⟩).clearScreen = .ok cleared ∧
    [['h','i','\n'],['y','o','u']].foldlM Writer.writeString cleared = .ok next ∧
    next.buffer = .ofRows 0x0a (List.replicate 23 []++[[0x68,0x69],[0x79,0x6f,0x75]]) ∧
    next.columnPosition = 3 := by
  obtain ⟨cleared,next,rows,hclear,hwrite,rfl,hbuffer,⟨last,hlast,hcolumn⟩,-⟩ := screen_shows_wrapped_tail
    (.boot ⟨.replicate 25 (.replicate 80 ⟨0,0⟩)⟩) [['h','i','\n'],['y','o','u']] (by decide)
  have hrows : TextWrap.wrap 80 0x0a
      (([['h','i','\n'],['y','o','u']].flatMap RustStr.bytes).map glyph) =
        [[0x68,0x69],[0x79,0x6f,0x75]] := by
    have hsplit : List.splitOn 0x0a (([['h','i','\n'],['y','o','u']].flatMap RustStr.bytes).map glyph) =
        [[0x68,0x69],[0x79,0x6f,0x75]] := by decide
    rw [TextWrap.wrap,hsplit]
    simp [TextWrap.wrapLine_short]
  rw [hrows] at hbuffer hlast
  refine ⟨cleared,next,hclear,hwrite,hbuffer,?_⟩
  rw [hcolumn,← Option.some.inj hlast]
  rfl

end Vga
end EnosKernel
