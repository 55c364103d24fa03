import HseDev.Lib.Transition
import HseDev.Lib.BlockHeap
import HseDev.Lib.Eventfd
import HseDev.Utils.StringT
import HseDev.Utils.StringInvariant
import HseDev.Utils.StringRuns
import HseDev.Sem22.TokenRouting
import HseDev.Sem22.TokenInvariant
import HseDev.Sem22.TokenRuns
import HseDev.Sem22.TokenProgram
import HseDev.Sem22.TokenSchedules
import HseDev.Lib.Monitor
import HseDev.Sem23.SafeQueue
import HseDev.Sem23.LostWakeup
import HseDev.Sem23.IsPrime
import HseDev.Sem23.PrimeStream
import HseDev.Sem24.AsyncVector
import HseDev.Sem24.AsyncVectorInvariant
import HseDev.Sem24.AsyncVectorRuns
import HseDev.Sem21.ChildSafety
import HseDev.Lib.Descriptors
import HseDev.Sem21.RunSetup
import HseDev.Sem11.FileRead
import HseDev.Sem11.Uppercase
import HseDev.Sem23.Container
import HseDev.Lib.Linked
import HseDev.Sem23.AtomicPush
import HseDev.Sem21.TwoWorkers
import HseDev.Sem17.PingPong
import HseDev.Sem17.PingPongRuns
import HseDev.Sem17.Pipeline
import HseDev.Sem11.CopyFile
import HseDev.Sem16.ExecPython
import HseDev.Lib.CString
import HseDev.Lib.Words
import HseDev.Sem12.ProcessLine
import HseDev.Sem12.Commands
import HseDev.Sem12.Echo
import HseDev.Sem12.Transfers
import HseDev.Sem16.ReadAll
import HseDev.Sem16.ExecPythonFds
import HseDev.Sem21.RunChild
import HseDev.Sem21.InputDelivery
import HseDev.Sem21.ResultCode
import HseDev.Lib.CInt
import HseDev.Sem21.RunTimer
import HseDev.Lib.LittleEndian
import HseDev.Lib.Rounding
import HseDev.Lib.X86
import HseDev.Sem10.DotProduct
import HseDev.Sem11.CopySchedule
import HseDev.Sem17.ExecWrapper
import HseDev.Sem19.EnsureSend
import HseDev.Sem21.ChildExit
import HseDev.Sem3.UserFile
import HseDev.Sem9.FixedMul
import HseDev.Lib.Scanning
import HseDev.Lib.Utf8
import HseDev.Sem20.RunEpoll
import HseDev.Sem3.Brackets
import HseDev.Sem6.GetSize
import HseDev.Utils.StringCStr
import HseDev.Lib.Assembly
import HseDev.Lib.CallFrame
import HseDev.Lib.WordArray
import HseDev.Sem6.StrCmp
import HseDev.Sem8.MinMax
import HseDev.Sem8.Reverse
import HseDev.Sem8.ReverseRuns
import HseDev.Sem9.MinMax
import HseDev.Lib.Growth
import HseDev.Utils.StringGrowth
import HseDev.Utils.StringReserve
import HseDev.Utils.StringSelf
import HseDev.Lib.ForkJoin
import HseDev.Lib.Locked
import HseDev.Sem22.InputSums
import HseDev.Sem22.RaceCondition
import HseDev.Sem23.LockedSums
import HseDev.Sem23.SpinMain
import HseDev.Sem23.ValueRing
import HseDev.Lib.Signals
import HseDev.Sem18.SigMask
import HseDev.Sem18.SignalRecursion
import HseDev.Sem22.JoinChain
import HseDev.Sem22.JoinStack
import HseDev.Lib.Socket
import HseDev.Sem18.DeferHandler
import HseDev.Sem19.Receive
import HseDev.Sem20.NoData
import HseDev.Sem6.Loop
import HseDev.Utils.StringFootprint
import HseDev.Utils.StringPool
import HseDev.Sem12.Session
