import MicroRaft.Checker.Check
import MicroRaft.Application.Decode
import MicroRaft.Application.Group
import MicroRaft.Application.Sessions
import MicroRaft.Application.Transaction
import MicroRaft.Cluster.Advance
import MicroRaft.Cluster.Backtrack
import MicroRaft.Cluster.Progress
import MicroRaft.Cluster.Recovery
import MicroRaft.Cluster.Retention
import MicroRaft.Group.Size
import MicroRaft.Node.CommitRule
import MicroRaft.Storage.Log
import MicroRaft.Transport.Frame
import MicroRaft.Driver.Admit
import MicroRaft.Snapshot.Transfer
import MicroRaft.Store.Merge
import MicroRaft.Store.Wal
