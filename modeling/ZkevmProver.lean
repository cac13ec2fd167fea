import ZkevmProver.ECRecover.ECRecover
import ZkevmProver.HashDB.AssociativeCacheExits
import ZkevmProver.HashDB.DatabaseCacheRuns
import ZkevmProver.HashDB.FlushId
import ZkevmProver.HashDB.MerklePath
import ZkevmProver.HashDB.SendDataOnce
import ZkevmProver.HashDB64.ConsolidateRuns
import ZkevmProver.HashDB64.KVTreeRefine
import ZkevmProver.HashDB64.LevelTreeRuns
import ZkevmProver.HashDB64.KeyValueHistoryRuns
import ZkevmProver.HashDB64.VersionDataRuns
import ZkevmProver.HashDB64.KeyValueRuns
import ZkevmProver.HashDB64.PageListPage
import ZkevmProver.HashDB64.SubStateRuns
import ZkevmProver.SM.BatchDecode
import ZkevmProver.SM.BinaryRun
import ZkevmProver.Utils.RlpRounds
import ZkevmProver.Prover.WitnessComplete
import ZkevmProver.Prover.WitnessTotal
import ZkevmProver.Prover.DataStreamAccepts
import ZkevmProver.SM.PaddingTables
import ZkevmProver.SM.KeccakMachines
import ZkevmProver.SM.MemAlignProved
import ZkevmProver.SM.MemoryTrace
import ZkevmProver.MainSM.ArithProved
import ZkevmProver.MainSM.HashKProved
import ZkevmProver.MainSM.MPdivProved
import ZkevmProver.MainSM.TracerMemory
import ZkevmProver.MainSM.TransactionHash
import ZkevmProver.Service.HashDB
import ZkevmProver.Service.LoadDB
import ZkevmProver.SM.Sha256Gate
import ZkevmProver.StarkPil.TranscriptIndices
import ZkevmProver.StarkPil.MerkleTreeBN128Binding
import ZkevmProver.StarkPil.Quotient
import ZkevmProver.StarkPil.BatchInverseParallel
import ZkevmProver.StarkPil.EvmapOpening
import ZkevmProver.StarkPil.FriComplete
import ZkevmProver.StarkPil.PlookupRows
import ZkevmProver.Prover.InputRoundTrip
import ZkevmProver.Utils.StringIncrement
import ZkevmProver.HashDB64.TreeChunk
import ZkevmProver.HashDB64.TreeChunkRows
import ZkevmProver.HashDB64.TreeChunkPreimages
import ZkevmProver.MainSM.PrecalcPoints
import ZkevmProver.Utils.KeySets
import ZkevmProver.SM.ClimbKey
import ZkevmProver.HashDB64.RawDataRuns
