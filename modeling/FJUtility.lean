import FJUtility.Library.LabelledMachine
import FJUtility.Library.AgentList
import FJUtility.Library.TokenQueue
import FJUtility.Library.CircularOrder
import FJUtility.Library.Courier
import FJUtility.Library.BlockHeap
import FJUtility.Dispatcher.Pool
import FJUtility.Dispatcher.Steps
import FJUtility.Dispatcher.InstanceView
import FJUtility.Dispatcher.Guarantees
import FJUtility.Dispatcher.WakeUps
import FJUtility.Dispatcher.Results
import FJUtility.Dispatcher.ResultGuarantees
import FJUtility.Containers.FixMap
import FJUtility.Containers.FixVector
import FJUtility.Containers.MapRefinement
import FJUtility.Containers.RawVector
import FJUtility.Containers.VectorRefinement
import FJUtility.Containers.SpliceBounds
import FJUtility.Containers.RawMap
import FJUtility.SharedMem.Region
import FJUtility.SharedMem.Processes
import FJUtility.SharedMem.ProcessTable
import FJUtility.SharedMem.Sending
import FJUtility.SharedMem.Allocator
import FJUtility.SharedMem.Broadcast
import FJUtility.SharedMem.Addressing
import FJUtility.SharedMem.Outcomes
import FJUtility.SharedMem.Tables
import FJUtility.SharedMem.Steps
import FJUtility.SharedMem.MailView
import FJUtility.SharedMem.MailGuarantees
import FJUtility.SharedMem.Registry
import FJUtility.SharedMem.Traffic
import FJUtility.SharedMem.Lifetime
import FJUtility.SharedMem.Wakeup
import FJUtility.SharedMem.Shutdown
import FJUtility.SharedMem.RefCounts
import FJUtility.SharedMem.ListenTable
import FJUtility.SharedMem.CleanUps
import FJUtility.SharedMem.Owners
import FJUtility.SharedMem.Ordering
import FJUtility.SharedMem.Guards
import FJUtility.SharedMem.Attach
import FJUtility.SharedMem.OneRegion
import FJUtility.SharedMem.Mappings
import FJUtility.SharedMem.Leftovers
import FJUtility.SharedMem.InitOnce
import FJUtility.SharedMem.JoinLoop
import FJUtility.SharedMem.Collection
import FJUtility.SharedMem.Accounting
import FJUtility.SharedMem.Delivery
import FJUtility.SharedMem.Holding
import FJUtility.SharedMem.Tenants
import FJUtility.Timer.Loop
import FJUtility.Timer.Timespec
import FJUtility.Timer.Table
import FJUtility.Timer.Removal
import FJUtility.Timer.Firing
import FJUtility.Timer.Cursor
import FJUtility.Timer.Deadline
import FJUtility.Timer.Rounds
import FJUtility.Timer.Fairness
import FJUtility.Timer.Teardown
import FJUtility.Timer.Activity
import FJUtility.Dispatcher.Shrinking
import FJUtility.Dispatcher.Handles
import FJUtility.Dispatcher.Draining
import FJUtility.Dispatcher.Answers
import FJUtility.Dispatcher.Messages
import FJUtility.Dispatcher.Rotation
import FJUtility.Dispatcher.Monitor
import FJUtility.Dispatcher.Teardown
import FJUtility.Timer.Latency
