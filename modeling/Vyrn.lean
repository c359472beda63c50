import Vyrn.Lib.Bytes
import Vyrn.Lib.SortedMap
import Vyrn.Lib.Packing
import Vyrn.Basic
import Vyrn.ValueLog
import Vyrn.PageTree.Node
import Vyrn.PageTree.Write
import Vyrn.Lib.BinarySearch
import Vyrn.PageTree.Lookup
import Vyrn.PageTree.Mutate
import Vyrn.PageTree.Rewrite
import Vyrn.PageTree.Tree
import Vyrn.PageTree.Refines
import Vyrn.PageTree.Read
import Vyrn.PageTree.Scan
import Vyrn.Engine.Overlay
import Vyrn.Engine.Plan
import Vyrn.Engine.Replay
import Vyrn.Engine.Mvcc
import Vyrn.Engine.Commit
import Vyrn.Engine.Retain
import Vyrn.Engine.Appliers
import Vyrn.PageTree.Height
import Vyrn.Engine.Index
import Vyrn.Lib.Transition
import Vyrn.Engine.Checkpoint
import Vyrn.Engine.Runs
import Vyrn.Lib.Quorum
import Vyrn.Server.Replication
import Vyrn.Server.Failover
import Vyrn.Cluster.System
import Vyrn.Cluster.Election
import Vyrn.Cluster.Logs
import Vyrn.Cluster.Fencing
import Vyrn.Cluster.Completeness
import Vyrn.Engine.ReadEngine
import Vyrn.Server.Pipeline
import Vyrn.Server.Barrier
import Vyrn.Server.Shown
import Vyrn.Server.Handle
import Vyrn.Server.Publication
import Vyrn.Server.Acknowledged
import Vyrn.Server.Transaction
import Vyrn.Server.Dispatch
import Vyrn.Wal.Record
import Vyrn.Wal.Segment
import Vyrn.Wal.Log
import Vyrn.Wal.Rotation
import Vyrn.Wal.Torn
import Vyrn.Lib.Damage
import Vyrn.Wal.Flip
import Vyrn.Engine.Accept
import Vyrn.Engine.Recover
import Vyrn.Engine.Counters
import Vyrn.Engine.Database
import Vyrn.Engine.Batches
import Vyrn.Engine.Reopen
import Vyrn.PageTree.Changed
import Vyrn.Engine.Merged
import Vyrn.Engine.WriteBack
import Vyrn.Engine.Chronicle
import Vyrn.Engine.ScanAt
import Vyrn.Engine.Conflicts
import Vyrn.Engine.Entries
import Vyrn.Engine.Unique
import Vyrn.Document.Collection
import Vyrn.Document.Create
import Vyrn.Server.Epoch
import Vyrn.Server.Handoff
import Vyrn.Server.Wire
import Vyrn.Wal.Prune
import Vyrn.Wal.GroupCommit
import Vyrn.Server.Gateway
import Vyrn.ValueLog.Shared
import Vyrn.Server.Respond
import Vyrn.Engine.Rejected
import Vyrn.Redact
import Vyrn.Server.Users
import Vyrn.Server.Throttle
import Vyrn.PageTree.Merge
import Vyrn.ValueLog.Repair
import Vyrn.Document.Keys
import Vyrn.Civil
