import PolarDB.BgReplayRun
import PolarDB.CheckpointRingbuf
import PolarDB.ConsensusAppend
import PolarDB.ConsensusSlruRun
import PolarDB.ConsistentLsnBound
import PolarDB.CopyBuffer
import PolarDB.CsnOldestRun
import PolarDB.CsnUpperbound
import PolarDB.CsnXidSnapshot
import PolarDB.FlashbackPointExact
import PolarDB.FlashbackSnapshotReplay
import PolarDB.FlogListRun
import PolarDB.FlogTruncate
import PolarDB.FlushListBatch
import PolarDB.FullpageNo
import PolarDB.LogIndexLsnRun
import PolarDB.LogIndexPageLookup
import PolarDB.LogIndexReplica
import PolarDB.LogIndexTruncate
import PolarDB.MiniTransaction
import PolarDB.OrToUnionAll
import PolarDB.PaxosAck
import PolarDB.PaxosCommit
import PolarDB.PaxosConfigString
import PolarDB.PaxosPending
import PolarDB.PaxosServerNum
import PolarDB.PxScan
import PolarDB.SingleProcessQueue
import PolarDB.SuccessorList
import PolarDB.SyncedIndex
import PolarDB.WalPipelineFlushRun
import PolarDB.WalPipelineNotifyRun
import PolarDB.WalPipelineWrittenRun
import PolarDB.XlogBufferDrop
