import StellarBench.Lib.System
import StellarBench.Lib.Bytes
import StellarBench.Lib.Slice
import StellarBench.Lib.Merge
import StellarBench.Lib.Threads
import StellarBench.Lib.CInt
import StellarBench.Lib.Faults
import StellarBench.Lib.InPlace
import StellarBench.Matrix.Block
import StellarBench.Matrix.Frame
import StellarBench.Matrix.Codec
import StellarBench.Matrix.Serializable
import StellarBench.Matrix.Partition
import StellarBench.Matrix.Sampling
import StellarBench.Matrix.Capacity
import StellarBench.Matrix.Kernel
import StellarBench.Matrix.KernelInt
import StellarBench.Matrix.Gradient
import StellarBench.Transport.Connection
import StellarBench.Transport.Token
import StellarBench.Transport.Contents
import StellarBench.Transport.Live
import StellarBench.Transport.OneToken
import StellarBench.Transport.Flow
import StellarBench.Transport.FlowControl
import StellarBench.Transport.Completion
import StellarBench.Transport.Lifecycle
import StellarBench.Cluster.Model
import StellarBench.Cluster.Steps
import StellarBench.Cluster.Counters
import StellarBench.Cluster.Rounds
import StellarBench.Cluster.Data
import StellarBench.Cluster.Lockstep
import StellarBench.Cluster.Sequential
import StellarBench.Cluster.Exclusive
import StellarBench.Cluster.Shapes
import StellarBench.Cluster.Announce
import StellarBench.Cluster.Progress
import StellarBench.Cluster.Startup
import StellarBench.Cluster.Disconnect
import StellarBench.Matrix.KernelSteps
import StellarBench.Lib.Marks
import StellarBench.Matrix.Coverage
import StellarBench.Matrix.Unrated
import StellarBench.Lib.Calls
import StellarBench.Verbs.Model
import StellarBench.Verbs.Client
import StellarBench.Verbs.Server
import StellarBench.Verbs.Acknowledge
import StellarBench.Verbs.Cleanup
import StellarBench.Lib.Advance
import StellarBench.Lib.Simulation
import StellarBench.Lib.Bulk
import StellarBench.Lib.Notify
import StellarBench.Transport.Advance
import StellarBench.Transport.Poller
import StellarBench.Cluster.Termination
import StellarBench.Cluster.Bulk
import StellarBench.Cluster.Exit
import StellarBench.Matrix.WholeRun
import StellarBench.Transport.EventLoop
import StellarBench.Transport.Opening
import StellarBench.Verbs.Shutdown
import StellarBench.Cluster.Faithful
import StellarBench.Lib.Fair
import StellarBench.Cluster.Fair
import StellarBench.Cluster.Program
import StellarBench.Matrix.SerializableInt
