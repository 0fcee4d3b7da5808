import EnosKernel.Runs
import EnosKernel.VgaScreen

/-! Where the hardware cursor stands between two calls of the writer.  Only the column
matters, and what a text does to it can be read off its bytes. -/
namespace EnosKernel
namespace Vga

open TextWrap

/-- The calls that end with `update_cursor`. -/
inductive ScreenCall
  | writeString (text : List Char)
  | clearScreen
  deriving DecidableEq, Repr

def Writer.call (w : Writer) : ScreenCall → Except Panic Writer
  | .writeString text => w.writeString text
  | .clearScreen => w.clearScreen

def ScreenStep (w : Writer) (c : ScreenCall) (t : Writer) : Prop := w.call c = .ok t

/-- The column behind one byte of a text: a full row is left by the byte behind it. -/
def columnBehind (column : ℕ) (byte : UInt8) : ℕ :=
  if byte = 0x08 then column-1
  else if byte = 0x0a then 0
  else if bufferWidth ≤ column then 1
  else column+1

def ScreenCall.column (start : ℕ) : ScreenCall → ℕ
  | .writeString text => (RustStr.bytes text).foldl columnBehind start
  | .clearScreen => 0

/-- The location of a cell of the last row. -/
def OnBottomRow (location : UInt16) : Prop :=
  location.toNat < bufferHeight*bufferWidth ∧ location.toNat/bufferWidth = bufferHeight-1

theorem length_feed (p : Roll UInt8) (byte : UInt8) :
    (feed p byte).current.length = columnBehind p.current.length byte := by
  unfold feed columnBehind
  by_cases hback : byte = 0x08
  · simp [hback,Roll.erase]
  · by_cases hline : byte = 0x0a
    · simp [hline,Roll.write,Roll.newLine,glyph]
    · have hglyph : glyph byte ≠ 0x0a := (glyph_eq_newline_iff byte).not.mpr hline
      simp only [if_neg hback,if_neg hline,Roll.write,if_neg hglyph,Roll.put]
      split_ifs <;> simp

theorem length_foldl_feed (p : Roll UInt8) (bytes : List UInt8) :
    (bytes.foldl feed p).current.length = bytes.foldl columnBehind p.current.length := by
  induction bytes generalizing p with
  | nil => rfl
  | cons byte bytes ih => rw [List.foldl_cons,ih,length_feed,List.foldl_cons]

namespace Writer

def Synced (w : Writer) : Prop := w.cursor.toNat = (bufferHeight-1)*bufferWidth+w.columnPosition

theorem synced_updateCursor {w : Writer} (h : w.columnPosition ≤ bufferWidth) : w.updateCursor.Synced := by
  have hsmall : (bufferHeight-1)*bufferWidth+w.columnPosition < 2^16 := by
    simp only [bufferHeight,bufferWidth] at h ⊢
    omega
  exact UInt16.toNat_ofNat_of_lt' hsmall

/-- Every call returns, with the column that the text gives and the cursor on it. -/
theorem call_spec {w : Writer} {p : Roll UInt8} (h : Covers w p) (c : ScreenCall) :
    ∃ t q, w.call c = .ok t ∧ Covers t q ∧ t.columnPosition = c.column w.columnPosition ∧ t.Synced := by
  cases c with
  | writeString text =>
    obtain ⟨u,hbytes,hu⟩ := Covers.follows.putBytes h (RustStr.bytes text)
    refine ⟨u.updateCursor,_,by rw [call,writeString,hbytes,MachineArith.ok_bind],
      Covers.follows.updateCursor hu,?_,synced_updateCursor (hu.column ▸ hu.fits.current)⟩
    rw [ScreenCall.column,h.column,← length_foldl_feed,← hu.column]
    rfl
  | clearScreen =>
    obtain ⟨t,hclear,hshows⟩ := w.clearScreen_shows
    obtain ⟨u,-,hu⟩ := MachineArith.bind_eq_ok.mp hclear
    cases hu
    exact ⟨_,.blank,hclear,.blank rfl,rfl,synced_updateCursor (Nat.zero_le _)⟩

end Writer

theorem onBottomRow_iff {w : Writer} (hsynced : w.Synced) (hcolumn : w.columnPosition ≤ bufferWidth) :
    OnBottomRow w.cursor ↔ w.columnPosition ≠ bufferWidth := by
  rw [OnBottomRow,hsynced]
  simp only [bufferHeight,bufferWidth] at hcolumn ⊢
  omega

/-- Every call returns, and the cursor is on the screen behind every call of a run exactly if
no call leaves the bottom row full. -/
theorem cursor_on_screen_iff (w : Writer) (hcolumn : w.columnPosition = 0) {path : List (ScreenCall × Writer)}
    (hpath : Runs.Along ScreenStep w path) :
    (∀ c, ∃ t, ScreenStep (Runs.final w path) c t) ∧
    (Runs.Along (fun _ _ t => OnBottomRow t.cursor) w path ↔
      Runs.Along (fun s c _ => c.column s.columnPosition ≠ bufferWidth) w path) := by
  have hstart : ∃ p, Covers w p := ⟨_,.blank hcolumn⟩
  have hstep : ∀ s c t, (∃ p, Covers s p) → ScreenStep s c t → ∃ p, Covers t p := by
    rintro s c t ⟨p,hs⟩ hcall
    obtain ⟨t',q,hcall',hq,-⟩ := Writer.call_spec hs c
    cases hcall.symm.trans hcall'
    exact ⟨q,hq⟩
  refine ⟨fun c => ?_,Runs.along_congr hstep ?_ hstart hpath⟩
  · obtain ⟨p,hp⟩ := hpath.reachable.invariant hstep hstart
    obtain ⟨t,-,hcall,-⟩ := Writer.call_spec hp c
    exact ⟨t,hcall⟩
  · rintro s c t ⟨p,hs⟩ hcall
    obtain ⟨t',q,hcall',hq,hbehind,hsynced⟩ := Writer.call_spec hs c
    cases hcall.symm.trans hcall'
    rw [← hbehind]
    exact onBottomRow_iff hsynced (hq.column ▸ hq.fits.current)

def Buffer.reset : Buffer where
  chars := .replicate _ (.replicate _ ⟨0x20,0x07⟩)

theorem cursor_on_screen_prompt : ∃ t, ScreenStep (.boot .reset) (.writeString "enos# ".toList) t ∧
    OnBottomRow t.cursor := by
  obtain ⟨t,-,hcall,-⟩ := Writer.call_spec (Covers.blank (w := .boot .reset) rfl) (.writeString "enos# ".toList)
  have halong : Runs.Along ScreenStep (.boot .reset) [(.writeString "enos# ".toList,t)] := ⟨hcall,trivial⟩
  have hiff := (cursor_on_screen_iff (.boot .reset) rfl halong).2
  have hroom : (ScreenCall.writeString "enos# ".toList).column 0 ≠ bufferWidth := by decide
  exact ⟨t,hcall,(hiff.mpr ⟨hroom,trivial⟩).1⟩

/-- A text that fills the row leaves the cursor one location behind the screen. -/
theorem cursor_behind_screen : ∃ t, ScreenStep (.boot .reset) (.writeString (.replicate 80 'a')) t ∧
    t.cursor.toNat = bufferHeight*bufferWidth ∧ ¬OnBottomRow t.cursor := by
  obtain ⟨t,q,hcall,hq,hcolumn,hsynced⟩ :=
    Writer.call_spec (Covers.blank (w := .boot .reset) rfl) (.writeString (.replicate 80 'a'))
  have hfull : t.columnPosition = bufferWidth := hcolumn.trans (by decide +kernel)
  refine ⟨t,hcall,hsynced.trans (by rw [hfull]; rfl),?_⟩
  rw [onBottomRow_iff hsynced hfull.le]
  exact not_not_intro hfull

end Vga
end EnosKernel
