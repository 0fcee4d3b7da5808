import EnosKernel.LockMachine
import EnosKernel.ScancodeQueue

/-! The lock traffic of the kernel: what each shell command, the keyboard polling loop,
the interrupt handlers and the system calls acquire and release, with the effect of
`without_interrupts` on the interrupt flag.  Data that decides a branch is a parameter. -/
namespace EnosKernel
namespace KernelLocks

open LockMachine
open Shell (scancodeQueueCapacity)

inductive Lock
  | writer
  | serial1
  | scheduler
  | scancodeQueue
  | pics
  | keyboardState
  | history
  | inputBuffer
  | session
  | files
  deriving DecidableEq, Repr

inductive Thread
  | user
  | background
  deriving DecidableEq, Repr

/-- A hardware interrupt, `int 0x80` with its number, or a page fault of ring 3; `printable` says
that the buffer of `SYS_PRINT` is valid and holds UTF-8. -/
inductive Event
  | keyboard
  | timer
  | syscall (number : UInt32) (printable : Bool)
  | pageFault (address code : UInt32)
  deriving DecidableEq, Repr

/-- A guard that lives for one statement or one block. -/
def lockOnce (l : Lock) : Code Lock := [.acquire l,.release l]

def withoutInterrupts (body : Code Lock) : Code Lock := .mask::(body++[.unmask])

def print : Code Lock := withoutInterrupts (lockOnce .writer)
def serialPrint : Code Lock := withoutInterrupts (lockOnce .serial1)
def prints (n : ℕ) : Code Lock := (List.replicate n print).flatten

/-- The only screen operation outside `without_interrupts`. -/
def clearScreen : Code Lock := lockOnce .writer

def schedulerStats : Code Lock := withoutInterrupts (lockOnce .scheduler)
def schedulerProcessSnapshot : Code Lock := withoutInterrupts (lockOnce .scheduler)
def killTask : Code Lock := withoutInterrupts (lockOnce .scheduler)

def printPrompt : Code Lock := lockOnce .session++print

def requireRoot (root : Bool) : Code Lock := lockOnce .session++if root then [] else print

def switchUser : Code Lock := lockOnce .session

def clearVisibleInput (count : ℕ) : Code Lock := prints count

/-- The visible line is erased while the input buffer is locked. -/
def replaceInputLine (count : ℕ) : Code Lock :=
  .acquire .inputBuffer::(clearVisibleInput count++[.release .inputBuffer])++print

def historyUp (entry : Option ℕ) : Code Lock :=
  lockOnce .inputBuffer++lockOnce .history++entry.elim [] replaceInputLine

def historyDown (entry : Option ℕ) : Code Lock := lockOnce .history++entry.elim [] replaceInputLine

/-- A command with what decides its branches: the rows it prints, whether the session is root,
whether its arguments are accepted. -/
inductive Command
  | clear
  | echo
  | calcExpression
  | help
  | uptime
  | ps (rows : ℕ)
  | top (rows : ℕ)
  | tasks (rows : ℕ)
  | meminfo
  | whoami
  | id
  | login (known : Bool)
  | logout
  | kill (root parsed : Bool) (rows : ℕ)
  | touch (accepted : Bool)
  | rm (root named : Bool)
  | ls (count : ℕ)
  | write (accepted : Bool)
  | cat (named : Bool)
  | fsinfo
  | about
  | unknown

def commandPs (rows : ℕ) : Code Lock := schedulerProcessSnapshot++prints (rows+1)

/-- A command on the file table prints one line, after a lock if its arguments are accepted. -/
def fileCommand (accepted : Bool) : Code Lock := (if accepted then lockOnce .files else [])++print

def Command.run : Command → Code Lock
  | .clear => clearScreen
  | .echo => print
  | .calcExpression => print
  | .help => prints 23
  | .uptime => schedulerStats++print
  | .ps rows => commandPs rows
  | .top rows => schedulerStats++schedulerProcessSnapshot++prints (rows+2)
  | .tasks rows => schedulerStats++prints 5++commandPs rows
  | .meminfo => lockOnce .files++prints 5
  | .whoami => lockOnce .session++print
  | .id => lockOnce .session++print
  | .login known => (if known then switchUser else [])++print
  | .logout => switchUser++print
  | .kill root parsed rows => requireRoot root++
      if root then (if parsed then killTask++print++commandPs rows else print) else []
  | .touch accepted => fileCommand accepted
  | .rm root named => requireRoot root++if root then fileCommand named else []
  | .ls count => lockOnce .files++if count = 0 then print else prints (count+1)
  | .write accepted => fileCommand accepted
  | .cat named => fileCommand named
  | .fsinfo => lockOnce .files++prints 4
  | .about => prints 2
  | .unknown => print

/-- `none` is an empty line. -/
def evaluateCommand : Option Command → Code Lock
  | none => lockOnce .inputBuffer++lockOnce .history++printPrompt
  | some command => lockOnce .inputBuffer++lockOnce .history++command.run++printPrompt

/-- A character with what the input buffer makes of it. -/
inductive Key
  | backspace (popped : Bool)
  | newline (command : Option Command)
  | char (room : Bool)

def pushChar : Key → Code Lock
  | .backspace popped => lockOnce .history++lockOnce .inputBuffer++if popped then print else []
  | .newline command => print++evaluateCommand command
  | .char room => lockOnce .inputBuffer++
      if room then lockOnce .history++lockOnce .inputBuffer++print else []

inductive InputAction
  | ignored
  | backspace (popped : Bool)
  | enter (command : Option Command)
  | tab (rooms : Fin 4 → Bool)
  | historyUp (entry : Option ℕ)
  | historyDown (entry : Option ℕ)
  | char (room : Bool)

def InputAction.run : InputAction → Code Lock
  | .ignored => []
  | .backspace popped => pushChar (.backspace popped)
  | .enter command => pushChar (.newline command)
  | .tab rooms => ((List.ofFn rooms).map fun room => pushChar (.char room)).flatten
  | .historyUp entry => KernelLocks.historyUp entry
  | .historyDown entry => KernelLocks.historyDown entry
  | .char room => pushChar (.char room)

def processScancode (action : InputAction) : Code Lock := lockOnce .keyboardState++action.run

def popScancode : Code Lock := lockOnce .scancodeQueue

/-- The loop pops and processes; unless the capacity stops it, a last pop finds the queue empty. -/
def pollInput (actions : List InputAction) : Code Lock :=
  (actions.map fun action => popScancode++processScancode action).flatten++
    if actions.length < scancodeQueueCapacity then popScancode else []

/-- One turn of `background_thread` up to its `hlt`. -/
def backgroundThread (actions : List InputAction) (heartbeat : Bool) : Code Lock :=
  pollInput actions++if heartbeat then serialPrint else []

def ack : Code Lock := lockOnce .pics

def keyboardInterruptHandler : Code Lock := lockOnce .scancodeQueue++ack

def schedulerTick : Code Lock := ack++lockOnce .scheduler

def sleepCurrentTask : Code Lock := lockOnce .scheduler

def syscallDispatcher (number : UInt32) (printable : Bool) : Code Lock :=
  match number with
  | 1 => if printable then print++serialPrint else []
  | 2 => sleepCurrentTask
  | 3 => sleepCurrentTask
  | _ => serialPrint

def terminateFromFault : Code Lock := lockOnce .scheduler

def pageFaultDispatcher : Code Lock := serialPrint++terminateFromFault

/-- The user task has no lock code of its own and runs with the flag set; only it makes system
calls and page faults, and a switch of threads is made by the timer and by page faults. -/
def system : System Lock Thread Event where
  program
    | .user, _ => False
    | .background, code => ∃ actions heartbeat, actions.length ≤ scancodeQueueCapacity ∧
        code = backgroundThread actions heartbeat
  handler
    | .keyboard => keyboardInterruptHandler
    | .timer => schedulerTick
    | .syscall number printable => syscallDispatcher number printable
    | .pageFault _ _ => pageFaultDispatcher
  source
    | .syscall _ _, t => t = .user
    | .pageFault _ _, t => t = .user
    | _, _ => True
  switches
    | .timer => True
    | .pageFault _ _ => True
    | _ => False

/-- The jump to ring 3 leaves the user task running and the background thread ready. -/
def start : State Lock Thread Event := State.start .user

end KernelLocks
end EnosKernel
