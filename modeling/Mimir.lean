import Mimir.Python.Except
import Mimir.Python.Dict
import Mimir.Python.Seq
import Mimir.Python.Float
import Mimir.Python.Heapq
import Mimir.Request.Types
import Mimir.Request.Hash
import Mimir.Kv.BlockPool
import Mimir.Kv.Manager
import Mimir.Kv.CacheManager
import Mimir.Sched.EncoderCache
import Mimir.Sched.Queue
import Mimir.Sched.State
import Mimir.Sched.Finish
import Mimir.Sched.Update
import Mimir.Sched.Schedule
import Mimir.Sched.Engine
import Mimir.Sched.Moves
import Mimir.Sched.QueueInv
import Mimir.Sched.Operations
import Mimir.Sched.Loops
import Mimir.Sched.Changes
import Mimir.Sched.Finality
import Mimir.Sched.Ownership
import Mimir.Kv.PoolLaws
import Mimir.Kv.HitLaws
import Mimir.Kv.Ledger
import Mimir.Kv.Slots
import Mimir.Theory.HashChain
import Mimir.Request.ChainLaws
import Mimir.Sched.Balance
import Mimir.Sched.Accounting
import Mimir.Sched.Reuse
import Mimir.Output.Detokenizer
import Mimir.Output.Collector
import Mimir.Output.Reassembly
import Mimir.Connector.Meta
import Mimir.Connector.Lookup
import Mimir.Kv.BlockCount
import Mimir.Sched.Frames
import Mimir.Sched.Pristine
import Mimir.Sched.Inert
import Mimir.Connector.Promise
import Mimir.Connector.Steps
import Mimir.Connector.Isolation
import Mimir.Worker.InputBatch
import Mimir.Worker.BlockTable
import Mimir.Distributed.ExpertShuffle
import Mimir.Distributed.ShuffleLaws
import Mimir.Multimodal.Cache
import Mimir.Distributed.ShmBroadcast
import Mimir.Distributed.ShmInvariant
import Mimir.Output.Parallel
import Mimir.Distributed.WaveLaws
import Mimir.Kv.Layout
import Mimir.Kv.LayoutLaws
import Mimir.Kv.Separation
import Mimir.Sched.LayerIsolation
import Mimir.Connector.Multi
import Mimir.Connector.SendCounts
import Mimir.Sched.Delays
import Mimir.Connector.Sending
import Mimir.Connector.SendLaws
import Mimir.Connector.SendOnce
import Mimir.Python.HeapLaws
import Mimir.Sched.PriorityQueue
import Mimir.Sched.Order
import Mimir.Sched.PinDecision
import Mimir.Request.MmKeys
import Mimir.Sched.Granularity
import Mimir.Kv.FreeCount
import Mimir.Kv.Placed
import Mimir.Kv.Served
import Mimir.Theory.Ragged
import Mimir.Worker.LocalAttention
import Mimir.Theory.Exchange
import Mimir.Request.Incremental
import Mimir.Worker.DecodeSplit
import Mimir.Worker.SpecDecode
import Mimir.Kv.MemoryCheck
import Mimir.Output.StopStrings
import Mimir.Distributed.ShmTimeouts
