import MaiterStore.CS.LinearProbing
import MaiterStore.Kernel.Table
import MaiterStore.Kernel.DeltaTable
import MaiterStore.Kernel.StateTable
import MaiterStore.Kernel.StateTableGrowth
import MaiterStore.Kernel.LocalTable
import MaiterStore.Kernel.DeltaLog
import MaiterStore.Util.Rpc
import MaiterStore.CS.DeltaIteration
import MaiterStore.Kernel.GlobalTable
import MaiterStore.Kernel.Kernel
import MaiterStore.Kernel.InitTable
import MaiterStore.Worker.Propagation
import MaiterStore.Worker.FixedPoint
import MaiterStore.Worker.Barrier
import MaiterStore.Master.Checkpoint
import MaiterStore.Master.RollingCheckpoint
import MaiterStore.Master.Scheduler
import MaiterStore.CS.MarkerSnapshot
import MaiterStore.Worker.RollingCheckpoint
import MaiterStore.Worker.ShardAssignment
import MaiterStore.Store.Text
import MaiterStore.Store.Adjacency
import MaiterStore.CS.PriorityCache
import MaiterStore.Store.Cache
import MaiterStore.CS.BlockFile
import MaiterStore.Store.Block
import MaiterStore.Store.BlockRoundTrip
import MaiterStore.Master.Ownership
import MaiterStore.Master.TaskScheduling
import MaiterStore.Kernel.SendUpdates
import MaiterStore.Kernel.Priority
import MaiterStore.CS.FixedWidth
import MaiterStore.Master.Restore
import MaiterStore.Master.RollingTables
import MaiterStore.Kernel.MarshalledMap
import MaiterStore.Master.Termcheck
import MaiterStore.Worker.RemoteIteration
import MaiterStore.CS.Framing
import MaiterStore.Util.RecordFile
import MaiterStore.Util.TruncatedFile
import MaiterStore.Util.LzoFile
import MaiterStore.Util.RecordRoundTrip
import MaiterStore.Util.RecordFileCrash
import MaiterStore.Worker.Taint
import MaiterStore.Kernel.TablePass
import MaiterStore.Worker.ScheduledPass
import MaiterStore.Worker.FallbackPass
import MaiterStore.Master.TaskOrder
import MaiterStore.Master.InitialAssignment
import MaiterStore.Store.BlockLayout
import MaiterStore.CS.BinarySearch
import MaiterStore.Store.BlockIndex
import MaiterStore.Store.InfluFile
import MaiterStore.CS.PageAlign
import MaiterStore.Store.MmapedFile
import MaiterStore.Worker.Buffering
import MaiterStore.Util.Encoder
import MaiterStore.CS.Contraction
import MaiterStore.CS.LeastSolution
import MaiterStore.Worker.LeastSolution
import MaiterStore.Worker.TableKeys
import MaiterStore.Worker.RunLoop
import MaiterStore.Worker.Convergence
import MaiterStore.Examples.Kernels
import MaiterStore.Examples.LinearKernels
import MaiterStore.Examples.ShortestPath
import MaiterStore.Examples.Components
import MaiterStore.Master.RunMaiter
import MaiterStore.Master.Termination
import MaiterStore.Master.IterationEnd
import MaiterStore.Util.RpcCalls
import MaiterStore.Util.RpcDelivery
import MaiterStore.Util.RoundTrip
import MaiterStore.Util.SyncBroadcast
import MaiterStore.Util.BroadcastProgress
import MaiterStore.Master.Broadcasts
import MaiterStore.Util.Call
