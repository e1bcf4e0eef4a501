import Pscv.Kernel.Drain
import Pscv.Kernel.Suspend
import Pscv.Kernel.DeltaPhase
import Pscv.Kernel.Simulate
import Pscv.Kernel.DeltaCount
import Pscv.Kernel.Uniform
import Pscv.Kernel.Pending
import Pscv.Kernel.PriorityQueue
import Pscv.Kernel.EventQueue
import Pscv.Kernel.Signal
import Pscv.Kernel.FifoOutcome
import Pscv.Kernel.Locks
import Pscv.Mag.Protocol
import Pscv.Mag.TimeResolution
import Pscv.Mag.Resolve
import Pscv.Mag.Determinism
import Pscv.Mag.Quote
import Pscv.Mag.Placement
import Pscv.Mag.Capture
import Pscv.Mag.Callers
import Pscv.Mag.Value
import Pscv.Mag.Attributes
import Pscv.Mag.Truncation
import Pscv.Mag.EventClock
import Pscv.Mag.Header
import Pscv.Mag.Requirements
import Pscv.Mag.Teardown
import Pscv.Mag.Inorder
import Pscv.Mag.ClassBraces
import Pscv.Mag.MonitorVariable
import Pscv.Mag.CommentOut
import Pscv.Mag.CommandLine
import Pscv.Mag.IncludeGuard
