import EnosKernel.Calculator
import EnosKernel.HeapAllocator
import EnosKernel.RamFs
import EnosKernel.Scheduler
import EnosKernel.ShellHistory

/-! The commands of `shell.rs` as functions of the shell's state.  What is printed is kept in
order; the heap offset at the time of a command, which only `meminfo` reads, is an
argument. -/
namespace EnosKernel
namespace Shell

open RustStr Scheduler

inductive SessionUser
  | enos | guest
  deriving DecidableEq, Repr

namespace SessionUser

def name : SessionUser → List Char
  | .enos => "enos".toList
  | .guest => "guest".toList

def uid : SessionUser → ℕ
  | .enos => 0
  | .guest => 1000

def isRoot : SessionUser → Bool
  | .enos => true
  | .guest => false

def promptSuffix (user : SessionUser) : List Char := if user.isRoot then "#".toList else "$".toList

def prompt (user : SessionUser) : List Char := user.name++user.promptSuffix++[' ']

end SessionUser

structure KeyboardState where
  shiftPressed : Bool
  capsLock : Bool
  extendedPrefix : Bool
  deriving DecidableEq, Repr

inductive Output
  | text (text : List Char)
  | clearScreen
  deriving DecidableEq, Repr

/-- The statics that the shell works on. -/
structure State where
  inputBuffer : List Char
  keyboard : KeyboardState
  history : HistoryState
  user : SessionUser
  files : RamFs.Files
  scheduler : TaskManager
  output : List Output
  deriving DecidableEq, Repr

namespace State

def print (s : State) (text : List Char) : State := { s with output := s.output++[.text text] }

def println (s : State) (text : List Char) : State := s.print (text++['\n'])

def printlns (s : State) (lines : List (List Char)) : State := lines.foldl println s

def clearScreen (s : State) : State := { s with output := s.output++[.clearScreen] }

def printPrompt (s : State) : State := s.print s.user.prompt

/-- `require_root`: whether to go on, and the state with the refusal printed if not. -/
def requireRoot (s : State) (action : List Char) : Bool × State :=
  if s.user.isRoot then (true,s)
  else (false,s.println ("Permission denied: `".toList++action++ "` requires enos root.".toList))

def switchUser (s : State) (user : SessionUser) : State := { s with user := user }

end State

def ticksPerSecond : ℕ := 100

def ticksToMs (ticks : ℕ) : ℕ := MachineArith.saturatingMul 64 ticks 1000/ticksPerSecond

def formatDurationFromTicks (ticks : ℕ) : ℕ × ℕ × ℕ × ℕ :=
  let totalMs := ticksToMs ticks
  let totalSeconds := totalMs/1000
  let ms := totalMs % 1000
  let hours := totalSeconds/3600
  let minutes := totalSeconds % 3600/60
  let seconds := totalSeconds % 60
  (hours,minutes,seconds,ms)

/-- The four numbers in the format that `uptime` and `tasks` share. -/
def durationText : ℕ × ℕ × ℕ × ℕ → List Char
  | (h,m,s,ms) => padZero 2 (decimal h)++ ":".toList++padZero 2 (decimal m)++ ":".toList++
      padZero 2 (decimal s)++ ".".toList++padZero 3 (decimal ms)

def formatBytes (bytes : ℕ) : List Char :=
  if 1024*1024 ≤ bytes then
    let mb := bytes/(1024*1024)
    let rem := bytes % (1024*1024)/(1024*10)
    "~".toList++decimal mb++ ".".toList++decimal rem++ " MB".toList
  else if 1024 ≤ bytes then
    let kb := bytes/1024
    let rem := bytes % 1024*10/1024
    "~".toList++decimal kb++ ".".toList++decimal rem++ " KB".toList
  else decimal bytes++ " B".toList

def helpLines : List (List Char) :=
  ["ENOS built-in commands:",
   "  help                 - Show this list",
   "  clear                - Clear screen",
   "  echo <msg>           - Print message",
   "  calc <expr>          - Arithmetic (+,-,*,/,%,())",
   "  uptime               - Show human-readable uptime",
   "  ps                   - Show running processes",
   "  top                  - Show process CPU usage",
   "  tasks                - Show scheduler stats + process list",
   "  meminfo              - Show memory usage",
   "  whoami               - Show current shell user",
   "  id                   - Show user identity",
   "  login <enos|guest>   - Switch shell identity",
   "  su <enos|guest>      - Alias for login",
   "  logout               - Switch to guest",
   "  kill <pid>           - Kill user process (root only)",
   "  touch <file>         - Create empty file",
   "  rm <file>            - Delete file (root only)",
   "  ls                   - List files",
   "  write <file> <text>  - Write text to file",
   "  cat <file>           - Show file content",
   "  fsinfo               - Show filesystem stats",
   "  about                - Show kernel info"].map String.toList

def showHelp (s : State) : State := s.printlns helpLines

def commandEcho (s : State) (commandLine : List Char) : State :=
  let text := trimStart ((stripPrefix "echo".toList commandLine).getD [])
  if text = [] then s.println "Usage: echo <msg>".toList else s.println text

/-- The expression evaluator always answers; the missing answer would be a parser out of fuel. -/
def commandCalc (s : State) (commandLine : List Char) : State :=
  let expr := trimStart ((stripPrefix "calc".toList commandLine).getD [])
  if expr = [] then s.println "Usage: calc <expression>".toList
  else match Calculator.evalCalcExpression (String.ofList expr) with
    | some (.ok value) => s.println ("= ".toList++decimalInt value)
    | some (.error err) => s.println ("calc: ".toList++err.toList)
    | none => s

def commandUptime (s : State) : State :=
  let stats := s.scheduler.stats
  s.println ("Uptime: ".toList++durationText (formatDurationFromTicks stats.totalTicks.toNat)++ " (".toList++
    decimal stats.totalTicks.toNat++ " ticks @ ".toList++decimal ticksPerSecond++ " Hz)".toList)

def psLine (process : TaskManager.ProcessSnapshot) : List Char :=
  padRight 5 (decimal process.id)++ " ".toList++padRight 8 process.privilege.toList++ " ".toList++
    padRight 8 process.state.toList++ " ".toList++padLeft 6 (decimal (ticksToMs process.runTicks.toNat))++
    "ms   ".toList++process.name.toList

def commandPs (s : State) : State :=
  s.printlns ("PID   PRIV     STATE    CPU-TIME   NAME".toList::s.scheduler.processSnapshot.map psLine)

/-- The share of a process in the ticks counted so far. -/
def cpuPercent (runTicks totalTicks : ℕ) : ℕ :=
  if totalTicks = 0 then 0 else MachineArith.saturatingMul 64 runTicks 100/totalTicks

def topLine (totalTicks : ℕ) (process : TaskManager.ProcessSnapshot) : List Char :=
  padRight 5 (decimal process.id)++ " ".toList++
    padLeft 3 (decimal (cpuPercent process.runTicks.toNat totalTicks))++ "%   ".toList++
    padLeft 6 (decimal (ticksToMs process.runTicks.toNat))++ "ms   ".toList++
    padRight 8 process.state.toList++ " ".toList++process.name.toList

/-- What `top` prints for the two readings it takes. -/
def topLines (stats : TaskManager.SchedulerStats) (processes : List TaskManager.ProcessSnapshot) :
    List (List Char) :=
  ("TOP (ticks=".toList++decimal stats.totalTicks.toNat++ " @ ".toList++decimal ticksPerSecond++ "Hz)".toList)::
  "PID   CPU%   CPU-TIME   STATE    NAME".toList::processes.map (topLine stats.totalTicks.toNat)

def commandTop (s : State) : State := s.printlns (topLines s.scheduler.stats s.scheduler.processSnapshot)

def commandTasks (s : State) : State :=
  let stats := s.scheduler.stats
  commandPs (s.printlns
    ["Scheduler:".toList,
     "  total tasks : ".toList++decimal stats.totalTasks,
     "  current task: ".toList++decimal stats.currentTaskId,
     "  uptime      : ".toList++durationText (formatDurationFromTicks stats.totalTicks.toNat),
     "  ticks       : ".toList++decimal stats.totalTicks.toNat])

def commandMeminfo (heapOffset : ℕ) (s : State) : State :=
  let heap := HeapAllocator.heapStats heapOffset
  let fs := RamFs.stats s.files
  s.printlns
    ["Memory:".toList,
     "  heap used : ".toList++formatBytes heap.usedBytes++ " (".toList++decimal heap.usedPercent++ "%)".toList,
     "  heap free : ".toList++formatBytes heap.freeBytes,
     "  heap total: ".toList++formatBytes heap.totalBytes,
     "  fs usage  : ".toList++decimal fs.fileCount++ "/".toList++decimal fs.maxFiles++ " files, ".toList++
       formatBytes fs.totalBytes++ " data".toList]

def commandWhoami (s : State) : State := s.println s.user.name

def commandId (s : State) : State :=
  s.println ("uid=".toList++decimal s.user.uid++ "(".toList++s.user.name++ ") gid=".toList++
    decimal s.user.uid++ "(".toList++s.user.name++ ") role=".toList++
    (if s.user.isRoot then "root".toList else "user".toList))

def parseLoginTarget (commandLine : List Char) : Option (List Char) := (splitWhitespace commandLine)[1]?

def commandLogin (s : State) (commandLine : List Char) : State :=
  match parseLoginTarget commandLine with
  | none => s.println "Usage: login <enos|guest>".toList
  | some target =>
    if target = "enos".toList then (s.switchUser .enos).println "Switched to enos (root).".toList
    else if target = "guest".toList ∨ target = "user".toList then
      (s.switchUser .guest).println "Switched to guest.".toList
    else s.println "login: unknown user".toList

def commandLogout (s : State) : State := (s.switchUser .guest).println "Logged out to guest.".toList

def killReply (pid : ℕ) : Except String KillTaskResult → List Char
  | .ok .killedNow => "PID ".toList++decimal pid++ " terminated.".toList
  | .ok .markedForTermination => "PID ".toList++decimal pid++ " marked for termination (next timer tick).".toList
  | .error err => "kill: ".toList++err.toList

def commandKill (s : State) (commandLine : List Char) : Except Panic State :=
  match s.requireRoot "kill".toList with
  | (false,s) => .ok s
  | (true,s) =>
    match (splitWhitespace commandLine)[1]? with
    | none => .ok (s.println "Usage: kill <pid>".toList)
    | some pidStr =>
      match parseUnsigned 32 pidStr with
      | none => .ok (s.println "kill: invalid pid".toList)
      | some pid => do
        let (answer,scheduler) ← s.scheduler.killTaskByPid pid
        .ok (commandPs (State.println { s with scheduler := scheduler } (killReply pid answer)))

def commandTouch (s : State) (commandLine : List Char) : State :=
  match (splitWhitespace commandLine)[1]? with
  | none => s.println "Usage: touch <file>".toList
  | some name =>
    let (result,files) := RamFs.createFile (String.ofList name) s.files
    let s := { s with files := files }
    match result with
    | .ok () => s.println ("Created: ".toList++name)
    | .error err => s.println ("touch: ".toList++err.toList)

def commandRm (s : State) (commandLine : List Char) : State :=
  match s.requireRoot "rm".toList with
  | (false,s) => s
  | (true,s) =>
    match (splitWhitespace commandLine)[1]? with
    | none => s.println "Usage: rm <file>".toList
    | some name =>
      let (result,files) := RamFs.deleteFile (String.ofList name) s.files
      let s := { s with files := files }
      match result with
      | .ok () => s.println ("Deleted: ".toList++name)
      | .error err => s.println ("rm: ".toList++err.toList)

def commandLs (s : State) : State :=
  let files := RamFs.listFiles s.files
  if files = [] then s.println "(empty)".toList
  else s.printlns ("NAME                             SIZE".toList::
    (files.mergeSort fun a b => decide (a.name ≤ b.name)).map fun file =>
      padRight 32 file.name.toList++ " ".toList++formatBytes file.size)

def commandWrite (s : State) (commandLine : List Char) : State :=
  let parts := splitn 3 ' ' commandLine
  match parts[1]?.filter (· ≠ []) with
  | none => s.println "Usage: write <file> <text>".toList
  | some name =>
    match parts[2]? with
    | none => s.println "Usage: write <file> <text>".toList
    | some contentRaw =>
      let content := trimStart contentRaw
      let (result,files) := RamFs.writeFile (String.ofList name) (String.ofList content) s.files
      let s := { s with files := files }
      match result with
      | .ok () => s.println ("Written: ".toList++name)
      | .error err => s.println ("write: ".toList++err.toList)

def commandCat (s : State) (commandLine : List Char) : State :=
  match (splitWhitespace commandLine)[1]? with
  | none => s.println "Usage: cat <file>".toList
  | some name =>
    match RamFs.readFile (String.ofList name) s.files with
    | .ok content => s.println content.toList
    | .error err => s.println ("cat: ".toList++err.toList)

def commandFsinfo (s : State) : State :=
  let stats := RamFs.stats s.files
  s.printlns
    ["Filesystem:".toList,
     "  files     : ".toList++decimal stats.fileCount++ "/".toList++decimal stats.maxFiles,
     "  data size : ".toList++formatBytes stats.totalBytes,
     "  max file  : ".toList++formatBytes stats.maxFileSize]

def commandAbout (s : State) : State :=
  s.printlns
    ["ENOS microkernel (x86, no_std, Rust)".toList,
     "Features: ring3 syscall gate, paging, preemptive scheduler, shell, ramfs".toList]

/-- The `match` on the first word of the line. -/
def dispatch (heapOffset : ℕ) (s : State) (command commandLine : List Char) : Except Panic State :=
  match String.ofList command with
  | "clear" => .ok s.clearScreen
  | "echo" => .ok (commandEcho s commandLine)
  | "calc" => .ok (commandCalc s commandLine)
  | "help" => .ok (showHelp s)
  | "uptime" => .ok (commandUptime s)
  | "ps" => .ok (commandPs s)
  | "top" => .ok (commandTop s)
  | "tasks" => .ok (commandTasks s)
  | "meminfo" => .ok (commandMeminfo heapOffset s)
  | "whoami" => .ok (commandWhoami s)
  | "id" => .ok (commandId s)
  | "login" => .ok (commandLogin s commandLine)
  | "su" => .ok (commandLogin s commandLine)
  | "logout" => .ok (commandLogout s)
  | "kill" => commandKill s commandLine
  | "touch" => .ok (commandTouch s commandLine)
  | "rm" => .ok (commandRm s commandLine)
  | "ls" => .ok (commandLs s)
  | "write" => .ok (commandWrite s commandLine)
  | "cat" => .ok (commandCat s commandLine)
  | "fsinfo" => .ok (commandFsinfo s)
  | "about" => .ok (commandAbout s)
  | _ => .ok (s.println ("Error: command not found: ".toList++commandLine))

def evaluateCommand (heapOffset : ℕ) (s : State) : Except Panic State :=
  let commandLine := trim s.inputBuffer
  let s := { s with inputBuffer := [] }
  if commandLine = [] then .ok (State.printPrompt { s with history := s.history.resetNavigation })
  else do
    let s := { s with history := s.history.record commandLine }
    let command := (splitWhitespace commandLine)[0]?.getD []
    let s ← dispatch heapOffset s command commandLine
    .ok s.printPrompt

end Shell
end EnosKernel
