import EllohimMQ.Lib.Transition
import EllohimMQ.Lib.Calls
import EllohimMQ.Lib.Trace
import EllohimMQ.Model.MessageBroker
import EllohimMQ.Proof.Delivery
import EllohimMQ.Proof.Routing
import EllohimMQ.Model.TcpServer
import EllohimMQ.Proof.Wired
import EllohimMQ.Proof.Isolation
import EllohimMQ.Lib.JsonText
import EllohimMQ.Lib.Pieces
import EllohimMQ.Lib.Table
import EllohimMQ.Model.EventLoop
import EllohimMQ.Model.JsonGrammar
import EllohimMQ.Model.Scheduler
import EllohimMQ.Model.ThreadPool
import EllohimMQ.Model.Wire
import EllohimMQ.Proof.FatalTexts
import EllohimMQ.Proof.Framing
import EllohimMQ.Proof.PoolJobs
import EllohimMQ.Proof.Readiness
import EllohimMQ.Proof.Tearing
import EllohimMQ.Proof.Timers
import EllohimMQ.Model.Coroutine
import EllohimMQ.Model.Topics
import EllohimMQ.Proof.Containment
import EllohimMQ.Lib.JsonEscape
import EllohimMQ.Model.AsyncScheduler
import EllohimMQ.Model.JsonDump
import EllohimMQ.Model.Orchestrator
import EllohimMQ.Model.ReadyLoop
import EllohimMQ.Proof.AsyncFrames
import EllohimMQ.Proof.AsyncQueues
import EllohimMQ.Proof.Bookkeeping
import EllohimMQ.Proof.Decoding
import EllohimMQ.Proof.Ownership
import EllohimMQ.Proof.Receiving
import EllohimMQ.Proof.Requests
import EllohimMQ.Proof.RoundRobin
import EllohimMQ.Proof.Shutdown
import EllohimMQ.Proof.Stealing
import EllohimMQ.Model.PoolLifetime
import EllohimMQ.Proof.Lifetime
import EllohimMQ.Proof.Sleeping
import EllohimMQ.Lib.BitMix
import EllohimMQ.Proof.Collisions
import EllohimMQ.Model.PollLoop
import EllohimMQ.Proof.PollPass
import EllohimMQ.Proof.Addition
import EllohimMQ.Lib.FileTree
import EllohimMQ.Model.FilePath
import EllohimMQ.Model.FileManager
import EllohimMQ.Proof.Moving
import EllohimMQ.Proof.Inside
import EllohimMQ.Model.Logger
import EllohimMQ.Proof.BackupNames
import EllohimMQ.Proof.Rotation
import EllohimMQ.Model.AsyncPool
import EllohimMQ.Proof.PublicCalls
import EllohimMQ.Lib.Progress
import EllohimMQ.Proof.PoolEnergy
import EllohimMQ.Proof.PoolLife
import EllohimMQ.Proof.PoolOrder
import EllohimMQ.Proof.TimersRest
import EllohimMQ.Proof.Ledger
import EllohimMQ.Model.Service
import EllohimMQ.Proof.Handlers
import EllohimMQ.Proof.ServiceSteps
import EllohimMQ.Proof.ServiceRuns
import EllohimMQ.Proof.ServiceRest
import EllohimMQ.Model.Broker
import EllohimMQ.Proof.Publishes
import EllohimMQ.Proof.Loops
import EllohimMQ.Model.SyncWait
import EllohimMQ.Proof.SyncWaits
import EllohimMQ.Proof.Streams
import EllohimMQ.Model.AsyncResult
import EllohimMQ.Proof.AsyncResults
import EllohimMQ.Proof.Durations
