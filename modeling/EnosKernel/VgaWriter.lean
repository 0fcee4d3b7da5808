import EnosKernel.ForLoop
import EnosKernel.MachineArith
import EnosKernel.RustStr

/-! The text-mode writer of `vga_buffer.rs`.  The loops run cell by cell as in the source, an
index outside the buffer panics, and what `update_cursor` sends to the ports is kept as the
location that the display shows the cursor at. -/
namespace EnosKernel
namespace Vga

open ForLoop

inductive Color
  | black | blue | green | cyan | red | magenta | brown | lightGray
  | darkGray | lightBlue | lightGreen | lightCyan | lightRed | pink | yellow | white
  deriving DecidableEq, Repr

/-- `color as u8`. -/
def Color.code : Color → UInt8
  | .black => 0 | .blue => 1 | .green => 2 | .cyan => 3
  | .red => 4 | .magenta => 5 | .brown => 6 | .lightGray => 7
  | .darkGray => 8 | .lightBlue => 9 | .lightGreen => 10 | .lightCyan => 11
  | .lightRed => 12 | .pink => 13 | .yellow => 14 | .white => 15

abbrev ColorCode := UInt8

def ColorCode.new (foreground background : Color) : ColorCode :=
  (background.code <<< 4) ||| foreground.code

structure ScreenChar where
  asciiCharacter : UInt8
  colorCode : ColorCode
  deriving DecidableEq, Repr

abbrev bufferHeight : ℕ := 25
abbrev bufferWidth : ℕ := 80

structure Buffer where
  chars : Vector (Vector ScreenChar bufferWidth) bufferHeight
  deriving DecidableEq, Repr

namespace Buffer

def read (b : Buffer) (row col : ℕ) : Except Panic ScreenChar :=
  if hrow : row < bufferHeight then
    if hcol : col < bufferWidth then .ok b.chars[row][col] else .error .indexOutOfBounds
  else .error .indexOutOfBounds

def write (b : Buffer) (row col : ℕ) (c : ScreenChar) : Except Panic Buffer :=
  if hrow : row < bufferHeight then
    if hcol : col < bufferWidth then .ok ⟨b.chars.set row (b.chars[row].set col c hcol) hrow⟩
    else .error .indexOutOfBounds
  else .error .indexOutOfBounds

end Buffer

structure Writer where
  columnPosition : ℕ
  colorCode : ColorCode
  buffer : Buffer
  cursor : UInt16
  deriving DecidableEq, Repr

namespace Writer

/-- The writer behind `WRITER`, over what the video memory holds at its first use. -/
def boot (buffer : Buffer) : Writer where
  columnPosition := 0
  colorCode := .new .lightGreen .black
  buffer := buffer
  cursor := 0

def blank (w : Writer) : ScreenChar where
  asciiCharacter := 0x20
  colorCode := w.colorCode

def clearRow (w : Writer) (row : ℕ) : Except Panic Writer := do
  let buffer ← forRange 0 bufferWidth (fun col buffer => buffer.write row col w.blank) w.buffer
  .ok { w with buffer := buffer }

def newLine (w : Writer) : Except Panic Writer := do
  let buffer ← forRange 1 bufferHeight (fun row buffer =>
    forRange 0 bufferWidth (fun col buffer => do
      let character ← buffer.read row col
      buffer.write (row-1) col character) buffer) w.buffer
  let w ← clearRow { w with buffer := buffer } (bufferHeight-1)
  .ok { w with columnPosition := 0 }

def writeByte (w : Writer) (byte : UInt8) : Except Panic Writer :=
  if byte = 0x0a then w.newLine
  else do
    let w ← if bufferWidth ≤ w.columnPosition then w.newLine else .ok w
    let buffer ← w.buffer.write (bufferHeight-1) w.columnPosition
      { asciiCharacter := byte, colorCode := w.colorCode }
    let columnPosition ← MachineArith.add 32 w.columnPosition 1
    .ok { w with buffer := buffer, columnPosition := columnPosition }

def backspace (w : Writer) : Except Panic Writer :=
  if 0 < w.columnPosition then do
    let w := { w with columnPosition := w.columnPosition-1 }
    let buffer ← w.buffer.write (bufferHeight-1) w.columnPosition w.blank
    .ok { w with buffer := buffer }
  else .ok w

def updateCursor (w : Writer) : Writer :=
  { w with cursor := UInt16.ofNat ((bufferHeight-1)*bufferWidth+w.columnPosition) }

/-- One turn of the loop of `write_string`. -/
def putByte (w : Writer) (byte : UInt8) : Except Panic Writer :=
  if byte = 0x08 then w.backspace
  else if (0x20 ≤ byte ∧ byte ≤ 0x7e) ∨ byte = 0x0a then w.writeByte byte
  else w.writeByte 0xfe

def writeString (w : Writer) (s : List Char) : Except Panic Writer := do
  let w ← (RustStr.bytes s).foldlM putByte w
  .ok w.updateCursor

/-- `clear_screen` on the locked writer. -/
def clearScreen (w : Writer) : Except Panic Writer := do
  let w ← forRange 0 bufferHeight (fun row w => w.clearRow row) w
  .ok (updateCursor { w with columnPosition := 0 })

end Writer
end Vga
end EnosKernel
