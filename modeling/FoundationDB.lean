import FoundationDB.Library.Transition
import FoundationDB.Library.SortedMap
import FoundationDB.Library.SortUnique
import FoundationDB.Library.CountingSort
import FoundationDB.Client.CommitTransaction
import FoundationDB.Client.Atomic
import FoundationDB.Client.AtomicSpec
import FoundationDB.Storage.EagerReads
import FoundationDB.Client.Versionstamp
import FoundationDB.Client.WriteMap
import FoundationDB.Client.Coalesce
import FoundationDB.Master.GetVersion
import FoundationDB.Master.VersionChain
import FoundationDB.CommitProxy.Reply
import FoundationDB.CommitProxy.ReadVersions
import FoundationDB.Resolver.ResolveBatch
import FoundationDB.Resolver.StateTransactions
import FoundationDB.Resolver.Delivery
import FoundationDB.Resolver.SortPoints
import FoundationDB.Resolver.ConflictBatch
import FoundationDB.Library.Quorum
import FoundationDB.Coordination.GenerationReg
import FoundationDB.Coordination.CoordinatedState
import FoundationDB.Coordination.Exclusive
import FoundationDB.Library.Keyed
import FoundationDB.Library.LexSucc
import FoundationDB.RYW.WriteMap
import FoundationDB.RYW.Reference
import FoundationDB.RYW.Segments
import FoundationDB.Library.Simulation
import FoundationDB.RYW.Mutate
import FoundationDB.Library.BigEndian
import FoundationDB.Client.Tuple
import FoundationDB.Client.TupleCodec
import FoundationDB.Client.TupleOrder
import FoundationDB.Rpc.RangeMap
import FoundationDB.Rpc.RangeMapUpdate
import FoundationDB.Rpc.RangeMapCoalesce
import FoundationDB.Client.KeyRangeMap
import FoundationDB.Client.CoalescedInsert
import FoundationDB.RYW.SnapshotCache
import FoundationDB.RYW.SnapshotCacheInsert
import FoundationDB.LogSystem.DurableVersion
import FoundationDB.Library.LittleEndian
import FoundationDB.Flow.Serialize
import FoundationDB.Library.RingBuffer
import FoundationDB.Flow.Deque
import FoundationDB.SystemData.KeyServers
import FoundationDB.Redwood.MutationBuffer
import FoundationDB.Library.Runs
import FoundationDB.Backup.LogFile
import FoundationDB.Backup.Continuity
import FoundationDB.Backup.LogRanges
import FoundationDB.Backup.LogValue
import FoundationDB.Library.Blocks
import FoundationDB.Backup.FileFormat
import FoundationDB.Library.PrefixOrder
import FoundationDB.Library.Trim
import FoundationDB.Library.Overwrite
import FoundationDB.Backup.RestoreRange
import FoundationDB.Backup.RestoreFile
import FoundationDB.Library.GroupBy
import FoundationDB.Backup.RestoreLog
