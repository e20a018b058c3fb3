import QConf.Lib.ByteCodec
import QConf.Lib.Transition
import QConf.Lib.SlotChain
import QConf.Lib.Ring
import QConf.Lib.Sorting
import QConf.Lib.KeyedLog
import QConf.Lib.Trim
import QConf.Lib.Lines
import QConf.Lib.CheckedBuffer
import QConf.Lib.Unsigned
import QConf.Lib.RacyRead
import QConf.Lib.RelyGuarantee
import QConf.Lib.Simulation
import QConf.Lib.Shell
import QConf.Base.Common
import QConf.Base.Format
import QConf.Base.Decode
import QConf.Base.Integer
import QConf.Base.GrayFormat
import QConf.Base.LengthBuffer
import QConf.Base.Qhasharr.Model
import QConf.Base.Qhasharr.Layout
import QConf.Base.Qhasharr.Move
import QConf.Base.Qhasharr.Buckets
import QConf.Base.Qhasharr.Ops
import QConf.Base.Qhasharr.FiniteMap
import QConf.Base.Qhasharr.Stores
import QConf.Base.Qhasharr.Reader
import QConf.Zookeeper.Path
import QConf.Zookeeper.Tree
import QConf.Zookeeper.Session
import QConf.Zookeeper.Notify
import QConf.Zookeeper.Requests
import QConf.Agent.Watcher
import QConf.Agent.Freshness
import QConf.Agent.Refresh
import QConf.Agent.Coherence
import QConf.Agent.Trigger
import QConf.Manager.Zk
import QConf.Manager.Create
import QConf.Manager.Gray
import QConf.Manager.Path
import QConf.Manager.Services
import QConf.Manager.Plan
import QConf.Manager.Faults
import QConf.Manager.Begin
import QConf.Manager.Content
import QConf.Manager.Release
import QConf.Manager.Rollback
import QConf.Manager.Commit
import QConf.Manager.ServiceList
import QConf.Manager.Registry
import QConf.Manager.Program
import QConf.Manager.Rules
import QConf.Manager.Protocol
import QConf.Manager.Interleaving
import QConf.Manager.ServiceProgram
import QConf.Manager.ServiceProtocol
import QConf.Agent.Gray
import QConf.Agent.Overrides
import QConf.Agent.GrayProtocol
import QConf.Base.Qhasharr.Digest
import QConf.Base.Qhasharr.Invariant
import QConf.Base.Qhasharr.Space
import QConf.Base.Qhasharr.Counter
import QConf.Base.Shm.Model
import QConf.Base.Shm.Lru
import QConf.Base.Shm.Frame
import QConf.Base.Shm.Evict
import QConf.Base.Shm.Iterate
import QConf.Base.Shm.Set
import QConf.Base.Shm.Recency
import QConf.Base.Shm.Crowded
import QConf.Base.Shm.BucketCount
import QConf.Base.Shm.Visit
import QConf.Agent.LocalIdc
import QConf.Agent.Config
import QConf.Driver.Lookup
import QConf.Driver.Path
import QConf.Agent.Reads
import QConf.Agent.StoredKeys
import QConf.Agent.Scan
import QConf.Agent.Provenance
import QConf.Agent.Threads
import QConf.Agent.Repair
import QConf.Agent.Script
import QConf.Agent.Handles
import QConf.Agent.GrayQueue
import QConf.Monitor.Model
import QConf.Monitor.Listener
import QConf.Monitor.Balance
import QConf.Monitor.Update
import QConf.Monitor.Offline
import QConf.Monitor.Status
import QConf.Monitor.CheckThread
import QConf.Monitor.Process
