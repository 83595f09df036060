import Raftrust.Storage.Wal.Sessions
import Raftrust.Storage.CompactionContent
import Raftrust.Storage.MapRefinement
import Raftrust.Mvcc.SnapshotReads
import Raftrust.Mvcc.Serializability
import Raftrust.Consensus.Restart
import Raftrust.Consensus.ElectionSafety
import Raftrust.Consensus.Indexing
import Raftrust.Consensus.Configuration
import Raftrust.Consensus.Peers
import Raftrust.Consensus.Progress
import Raftrust.Consensus.LeaderCompleteness
import Raftrust.Consensus.StateMachineSafety
import Raftrust.Consensus.Applied
import Raftrust.Consensus.Reads
import Raftrust.Consensus.Durability
import Raftrust.Server.Replicas
import Raftrust.Server.EventLoop
import Raftrust.Consensus.Redelivery
import Raftrust.Server.Watch
import Raftrust.Server.Attachment
import Raftrust.Server.Orphans
import Raftrust.Server.Replay
import Raftrust.Mvcc.Concurrent
import Raftrust.Storage.FlushFaults
import Raftrust.Storage.CompactionCrash
import Raftrust.Consensus.CommitAdvance
import Raftrust.Consensus.Proposals
import Raftrust.Consensus.CatchUp
import Raftrust.Consensus.Snapshot
import Raftrust.Server.Backup
import Raftrust.Lib.Neighbours
import Raftrust.Mvcc.Gc
import Raftrust.Mvcc.RangeScan
import Raftrust.Mvcc.Commit
import Raftrust.Storage.ReadAgreement
import Raftrust.Storage.CompactionRuns
import Raftrust.Common.Checked
import Raftrust.Storage.SizeAccounting
import Raftrust.Storage.Wal.Recovery
import Raftrust.Consensus.LogRefinement
import Raftrust.Storage.Sst.Checked
import Raftrust.Storage.Sst.Corruption
import Raftrust.Mvcc.AppendOnly
import Raftrust.Mvcc.Ttl
import Raftrust.Lib.Broadcast
import Raftrust.Server.WatchStream
import Raftrust.Server.WatchDelivery
import Raftrust.Consensus.SnapshotCrash
import Raftrust.Consensus.SnapshotRefinement
import Raftrust.Storage.Sst.Format
import Raftrust.Records
import Raftrust.Consensus.Finality
import Raftrust.Server.Deployment
import Raftrust.Server.KvService
import Raftrust.Server.LinearizableRead
import Raftrust.Consensus.Availability
import Raftrust.Consensus.Hosts
import Raftrust.Consensus.Electability
import Raftrust.Server.Rounds
import Raftrust.Server.RoundsRefinement
