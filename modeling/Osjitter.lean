import Osjitter.Lib.Machine
import Osjitter.Lib.Readings
import Osjitter.Lib.Relay
import Osjitter.Lib.Token
import Osjitter.Lib.Wakeup
import Osjitter.Lib.Ranking
import Osjitter.Lib.Scale
import Osjitter.Lib.OrderStat
import Osjitter.Lib.CString
import Osjitter.Lib.Columns
import Osjitter.Lib.Json
import Osjitter.Lib.PyText
import Osjitter.Lib.Checked
import Osjitter.Lib.Qsort
import Osjitter.Lib.Traced
import Osjitter.Util.Clock
import Osjitter.Util.ClockTheorems
import Osjitter.Util.Factors
import Osjitter.Util.Stats
import Osjitter.Util.StatsTheorems
import Osjitter.Util.Table
import Osjitter.Util.Calls
import Osjitter.Util.TscKhz
import Osjitter.Util.TscKhzTheorems
import Osjitter.Util.Sources
import Osjitter.Pingpong.Worker
import Osjitter.Pingpong.WorkerTheorems
import Osjitter.Pingpong.Protocol
import Osjitter.Pingpong.Progress
import Osjitter.Pingpong.Spin
import Osjitter.Pingpong.SpinTheorems
import Osjitter.Pingpong.Pipe
import Osjitter.Pingpong.PipeTheorems
import Osjitter.Pingpong.Semaphore
import Osjitter.Pingpong.SemaphoreTheorems
import Osjitter.Pingpong.Futex
import Osjitter.Pingpong.FutexTheorems
import Osjitter.Pingpong.CondVar
import Osjitter.Pingpong.CondVarTheorems
import Osjitter.Pingpong.Complete
import Osjitter.Pingpong.Methods
import Osjitter.Pingpong.Bounds
import Osjitter.Pingpong.Failure
import Osjitter.Pingpong.Results
import Osjitter.Pingpong.ResultsTheorems
import Osjitter.Pingpong.Json
import Osjitter.Pingpong.Replay
import Osjitter.Pingpong.Exit
import Osjitter.Pingpong.Elapsed
import Osjitter.Pingpong.Ranking
import Osjitter.Pingpong.Termination
import Osjitter.Pingpong.ParseArgs
import Osjitter.Pingpong.ParseArgsTheorems
import Osjitter.Pingpong.Null
import Osjitter.Pingpong.NullTheorems
import Osjitter.Pingpong.NullTermination
import Osjitter.Pingpong.Program
import Osjitter.Pingpong.TableText
import Osjitter.Jitter.WorkerMain
import Osjitter.Jitter.WorkerTheorems
import Osjitter.Jitter.Bookkeeping
import Osjitter.Jitter.ParseArgs
import Osjitter.Jitter.Selection
import Osjitter.Jitter.Capacity
import Osjitter.Jitter.OptionOrder
import Osjitter.Jitter.Results
import Osjitter.Jitter.ProcSched
import Osjitter.Jitter.Handshake
import Osjitter.Jitter.HandshakeTheorems
import Osjitter.Jitter.Program
import Osjitter.Jitter.Report
import Osjitter.Jitter.Termination
import Osjitter.Jitter.Main
import Osjitter.Jitter.TableText
import Osjitter.Ptp.ClockOffset
import Osjitter.Ptp.ClockOffsetTheorems
import Osjitter.Ptp.Main
import Osjitter.Helper.Bench
import Osjitter.Helper.BenchTheorems
import Osjitter.Order
import Osjitter.Asserts
