import EnosKernel.MachineArith
import EnosKernel.Runs
import EnosKernel.SortedScan
import EnosKernel.CyclicScan
import EnosKernel.KeyedList
import EnosKernel.Scheduler
import EnosKernel.SchedulerRuns
import EnosKernel.SchedulerSafety
import EnosKernel.SchedulerCalls
import EnosKernel.SchedulerRing
import EnosKernel.SchedulerAccounting
import EnosKernel.SchedulerFairness
import EnosKernel.SchedulerLifetimes
import EnosKernel.SchedulerSleep
import EnosKernel.ProcessControl
import EnosKernel.SchedulerRemoval
import EnosKernel.ForLoop
import EnosKernel.TextWrap
import EnosKernel.RustStr
import EnosKernel.DecimalText
import EnosKernel.VgaWriter
import EnosKernel.VgaScreen
import EnosKernel.VgaCursor
import EnosKernel.CircularBuffer
import EnosKernel.ScancodeQueue
import EnosKernel.FrameAllocator
import EnosKernel.FrameEnumeration
import EnosKernel.FrameRuns
import EnosKernel.FrameWalk
import EnosKernel.LockMachine
import EnosKernel.KernelLocks
import EnosKernel.KernelLockSafety
import EnosKernel.BitFields
import EnosKernel.MemoryReport
import EnosKernel.Paging
import EnosKernel.HeapAllocator
import EnosKernel.RamFs
import EnosKernel.RamFsRefinement
import EnosKernel.SignedArith
import EnosKernel.Fueled
import EnosKernel.Calculator
import EnosKernel.CalcParsing
import EnosKernel.CalcGrammar
import EnosKernel.CalcSoundness
import EnosKernel.CalcTermination
import EnosKernel.CalcCompleteness
import EnosKernel.CalcAnswers
import EnosKernel.CalcExact
import EnosKernel.CalcRoundTrip
import EnosKernel.ShellHistory
import EnosKernel.HistoryContents
import EnosKernel.ShellCommands
import EnosKernel.SizeFormat
import EnosKernel.LineEditor
import EnosKernel.GuestSafety
import EnosKernel.LineEditorSafety
import EnosKernel.KeyDecoding
import EnosKernel.HistoryNavigation
import EnosKernel.ShiftTracking
import EnosKernel.KeyEvents
import EnosKernel.ScreenEcho
import EnosKernel.TopReadings
import EnosKernel.WriteCommand
import EnosKernel.ByteMemory
import EnosKernel.Ia32
import EnosKernel.Syscalls
import EnosKernel.InterruptWrappers
import EnosKernel.SavedPointers
import EnosKernel.ThreadContexts
import EnosKernel.ContextSwitch
import EnosKernel.ContextRuns
import EnosKernel.LockedThreads
import EnosKernel.Ia32Tables
import EnosKernel.KernelTables
import EnosKernel.InterruptGates
import EnosKernel.ExceptionHandlers
import EnosKernel.HeapStacks
import EnosKernel.Ia32Code
import EnosKernel.UserProgram
import EnosKernel.UserRuns
import EnosKernel.Clock
import EnosKernel.InterruptController
import EnosKernel.InterruptDelivery
import EnosKernel.Pic8259
import EnosKernel.Pit8254
import EnosKernel.Uart16550
import EnosKernel.SerialPort
import EnosKernel.HeapLifetime
