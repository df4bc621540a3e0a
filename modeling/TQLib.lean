import TQLib.Foundations.Machine
import TQLib.Foundations.Words
import TQLib.Foundations.TimedQueue
import TQLib.Foundations.OrderedMap
import TQLib.Foundations.BinaryHeap
import TQLib.Foundations.Stable
import TQLib.Foundations.Stacks
import TQLib.Foundations.UnorderedMap
import TQLib.Foundations.Registry
import TQLib.Foundations.Decimal
import TQLib.Foundations.RotatingLog
import TQLib.Units.Time
import TQLib.TaskQueueStdlib.Model
import TQLib.TaskQueueStdlib.Scheduling
import TQLib.TaskQueueStdlib.WakeUp
import TQLib.TaskQueueWin.Model
import TQLib.TaskQueueWin.Immediate
import TQLib.TaskQueueWin.Timers
import TQLib.TaskQueueWin.Ties
import TQLib.TaskQueueLibevent.Model
import TQLib.TaskQueueLibevent.WakePipe
import TQLib.Thread.Model
import TQLib.Thread.MessageQueue
import TQLib.Thread.Quit
import TQLib.Thread.WakeUp
import TQLib.Thread.BlockingCall
import TQLib.Thread.PostedDelay
import TQLib.Sigslot2.Model
import TQLib.Sigslot2.SenderList
import TQLib.Sigslot2.System
import TQLib.Sigslot2.Scopes
import TQLib.Sigslot2.LockOrder
import TQLib.Sigslot2.Connections
import TQLib.Sigslot2.SingleShot
import TQLib.Sigslot2.Affinity
import TQLib.PhysicalSocketServer.Model
import TQLib.PhysicalSocketServer.SocketDispatcher
import TQLib.PhysicalSocketServer.Mirror
import TQLib.PhysicalSocketServer.Wait
import TQLib.PhysicalSocketServer.Delivery
import TQLib.PhysicalSocketServer.Signaler
import TQLib.AsyncResolver.Model
import TQLib.AsyncResolver.Lifecycle
import TQLib.AsyncResolver.Delivery
import TQLib.EventTracer.Model
import TQLib.EventTracer.Stop
import TQLib.Event.Model
import TQLib.Event.Semantics
import TQLib.FileRotatingStream.Model
import TQLib.FileRotatingStream.Files
import TQLib.FileRotatingStream.Reader
import TQLib.FileRotatingStream.RoundTrip
import TQLib.FileRotatingStream.CallSession
import TQLib.TaskQueueWin.Stranded
import TQLib.Foundations.Worklist
import TQLib.ThreadManager.SendGraph
import TQLib.Foundations.Nesting
import TQLib.ThreadManager.CurrentThread
import TQLib.RepeatingTask.Schedule
import TQLib.Sigslot2.Arguments
import TQLib.Foundations.LiveIteration
import TQLib.Sigslot2.Iterator
import TQLib.Sigslot2.Removal
import TQLib.Sigslot2.Flags
import TQLib.Sigslot2.Walking
import TQLib.Sigslot2.Emission
import TQLib.Sigslot2.Disconnect
import TQLib.Sigslot2.Clone
import TQLib.Sigslot2.Refusal
import TQLib.Foundations.Residues
import TQLib.Foundations.Signed
import TQLib.Numerics.SeqNumUnwrapper
import TQLib.PhysicalSocketServer.Deadline
import TQLib.PhysicalSocketServer.Connection
import TQLib.PhysicalSocketServer.Generation
import TQLib.PhysicalSocketServer.ConnectionState
import TQLib.FileRotatingStream.Reopen
import TQLib.TimeUtils.WrapAround
import TQLib.TimeUtils.SystemTime
import TQLib.IpAddress.Truncate
import TQLib.SocketAddress.Order
import TQLib.SocketAddress.Storage
import TQLib.Win32.TextForms
import TQLib.Win32.RoundTrip
import TQLib.SocketAddress.TextRoundTrip
import TQLib.Numerics.MovingMaxCounter
import TQLib.Numerics.MovingAverage
import TQLib.Numerics.MovingPercentileFilter
import TQLib.Numerics.HistogramMerge
import TQLib.Numerics.SampleCounter
import TQLib.Numerics.RunningStatistics
import TQLib.FlatTree.FlatMap
import TQLib.FlatTree.BulkInsert
import TQLib.Logging.Noop
import TQLib.StringEncode.Hex
import TQLib.StringEncode.Fields
import TQLib.StringEncode.Numbers
import TQLib.StringBuilder.Simple
import TQLib.EventTracer.TraceJson
import TQLib.TimeUtils.TmToSeconds
import TQLib.Units.DataRate
import TQLib.Numerics.ModOps
import TQLib.Numerics.SafeMinMax
import TQLib.Numerics.SafeConversions
import TQLib.Numerics.EventRateCounter
import TQLib.Win32.Terminator
import TQLib.Foundations.Sextets
import TQLib.Base64.Acceptance
import TQLib.Base64.Passing
import TQLib.ScopedRefptr.Safety
import TQLib.Sigslot.Bookkeeping
import TQLib.Sigslot.Emission
import TQLib.TaskSafety.Safety
