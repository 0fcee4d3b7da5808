import EnosKernel.ShellCommands

/-! The line editor of `shell.rs`: what a scancode does to the keyboard state, the input
buffer, the history and the screen. -/
namespace EnosKernel
namespace Shell

open RustStr

def maxInputLen : ℕ := 256

inductive InputAction
  | backspace | enter | tab | historyUp | historyDown
  | char (c : Char)
  deriving DecidableEq, Repr

def mapLetterBase (scancode : UInt8) : Option Char :=
  match scancode with
  | 0x10 => some 'q'
  | 0x11 => some 'w'
  | 0x12 => some 'e'
  | 0x13 => some 'r'
  | 0x14 => some 't'
  | 0x15 => some 'y'
  | 0x16 => some 'u'
  | 0x17 => some 'i'
  | 0x18 => some 'o'
  | 0x19 => some 'p'
  | 0x1e => some 'a'
  | 0x1f => some 's'
  | 0x20 => some 'd'
  | 0x21 => some 'f'
  | 0x22 => some 'g'
  | 0x23 => some 'h'
  | 0x24 => some 'j'
  | 0x25 => some 'k'
  | 0x26 => some 'l'
  | 0x2c => some 'z'
  | 0x2d => some 'x'
  | 0x2e => some 'c'
  | 0x2f => some 'v'
  | 0x30 => some 'b'
  | 0x31 => some 'n'
  | 0x32 => some 'm'
  | _ => none

def mapNonLetter (scancode : UInt8) (shifted : Bool) : Option Char :=
  match scancode with
  | 0x02 => some (if shifted then '!' else '1')
  | 0x03 => some (if shifted then '@' else '2')
  | 0x04 => some (if shifted then '#' else '3')
  | 0x05 => some (if shifted then '$' else '4')
  | 0x06 => some (if shifted then '%' else '5')
  | 0x07 => some (if shifted then '^' else '6')
  | 0x08 => some (if shifted then '&' else '7')
  | 0x09 => some (if shifted then '*' else '8')
  | 0x0a => some (if shifted then '(' else '9')
  | 0x0b => some (if shifted then ')' else '0')
  | 0x0c => some (if shifted then '_' else '-')
  | 0x0d => some (if shifted then '+' else '=')
  | 0x1a => some (if shifted then '\x7b' else '[')
  | 0x1b => some (if shifted then '\x7d' else ']')
  | 0x27 => some (if shifted then ':' else ';')
  | 0x28 => some (if shifted then '\x22' else '\x27')
  | 0x29 => some (if shifted then '~' else '\x60')
  | 0x2b => some (if shifted then '|' else '\x5c')
  | 0x33 => some (if shifted then '<' else ',')
  | 0x34 => some (if shifted then '>' else '.')
  | 0x35 => some (if shifted then '?' else '/')
  | 0x39 => some ' '
  | 0x37 => some '*'
  | 0x47 => some '7'
  | 0x48 => some '8'
  | 0x49 => some '9'
  | 0x4a => some '-'
  | 0x4b => some '4'
  | 0x4c => some '5'
  | 0x4d => some '6'
  | 0x4e => some '+'
  | 0x4f => some '1'
  | 0x50 => some '2'
  | 0x51 => some '3'
  | 0x52 => some '0'
  | 0x53 => some '.'
  | _ => none

def mapKey (scancode : UInt8) (shifted capsLock : Bool) : Option Char :=
  match mapLetterBase scancode with
  | some c => some (if capsLock ^^ shifted then c.toUpper else c)
  | none => mapNonLetter scancode shifted

/-- The first half of `process_scancode`: the action that a scancode stands for. -/
def KeyboardState.decode (keyboard : KeyboardState) (scancode : UInt8) : Option InputAction × KeyboardState :=
  let isRelease := scancode &&& 0x80 ≠ 0
  let code := scancode &&& 0x7f
  if scancode = 0xe0 then (none,{ keyboard with extendedPrefix := true })
  else if keyboard.extendedPrefix then
    let keyboard := { keyboard with extendedPrefix := false }
    if isRelease then (none,keyboard)
    else if code = 0x48 then (some .historyUp,keyboard)
    else if code = 0x50 then (some .historyDown,keyboard)
    else (none,keyboard)
  else if isRelease then
    (none,if code = 0x2a ∨ code = 0x36 then { keyboard with shiftPressed := false } else keyboard)
  else if code = 0x2a ∨ code = 0x36 then (none,{ keyboard with shiftPressed := true })
  else if code = 0x3a then (none,{ keyboard with capsLock := !keyboard.capsLock })
  else if code = 0x0e then (some .backspace,keyboard)
  else if code = 0x1c then (some .enter,keyboard)
  else if code = 0x0f then (some .tab,keyboard)
  else ((mapKey code keyboard.shiftPressed keyboard.capsLock).map .char,keyboard)

/-- The loop of `replace_input_line`: characters are pushed while there is room. -/
def fillBuffer (buffer : List Char) : List Char → List Char
  | [] => buffer
  | ch::text => if maxInputLen ≤ len buffer then buffer else fillBuffer (buffer++[ch]) text

namespace State

/-- The statics before the first key; tasks may be running already. -/
def boot (scheduler : Scheduler.TaskManager) : State where
  inputBuffer := []
  keyboard := ⟨false,false,false⟩
  history := .new
  user := .enos
  files := []
  scheduler := scheduler
  output := []

def init (s : State) : State :=
  (s.println "ENOS shell ready. Type `help` for commands.".toList).printPrompt

def clearVisibleInput (s : State) : ℕ → State
  | 0 => s
  | count+1 => clearVisibleInput (s.print ['\x08']) count

def replaceInputLine (s : State) (text : List Char) : State :=
  let s := s.clearVisibleInput (len s.inputBuffer)
  let s := { s with inputBuffer := fillBuffer [] text }
  s.print s.inputBuffer

/-- What `history_up` and `history_down` do with the answer of the history. -/
def showEntry (s : State) : Option (List Char) × HistoryState → State
  | (some entry,history) => replaceInputLine { s with history := history } entry
  | (none,history) => { s with history := history }

def historyUp (s : State) : Except Panic State := do
  let answer ← s.history.previous s.inputBuffer
  .ok (s.showEntry answer)

def historyDown (s : State) : Except Panic State := do
  let answer ← s.history.next
  .ok (s.showEntry answer)

def resetHistory (s : State) : State := { s with history := s.history.resetNavigation }

def pushChar (heapOffset : ℕ) (s : State) (c : Char) : Except Panic State :=
  if c = '\x08' then
    let s := s.resetHistory
    if s.inputBuffer = [] then .ok s
    else .ok (print { s with inputBuffer := s.inputBuffer.dropLast } [c])
  else if c = '\n' then evaluateCommand heapOffset (s.print [c])
  else if len s.inputBuffer < maxInputLen then
    let s := s.resetHistory
    .ok (print { s with inputBuffer := s.inputBuffer++[c] } [c])
  else .ok s

def perform (heapOffset : ℕ) (s : State) : Option InputAction → Except Panic State
  | some .backspace => s.pushChar heapOffset '\x08'
  | some .enter => s.pushChar heapOffset '\n'
  | some .tab => [' ',' ',' ',' '].foldlM (pushChar heapOffset) s
  | some .historyUp => s.historyUp
  | some .historyDown => s.historyDown
  | some (.char c) => s.pushChar heapOffset c
  | none => .ok s

def processScancode (heapOffset : ℕ) (s : State) (scancode : UInt8) : Except Panic State :=
  let (action,keyboard) := s.keyboard.decode scancode
  perform heapOffset { s with keyboard := keyboard } action

end State
end Shell
end EnosKernel
