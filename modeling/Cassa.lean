import Cassa.Lib.Runs
import Cassa.Lib.History
import Cassa.Lib.SortedFold
import Cassa.SiloCC.LockOwnership
import Cassa.SiloCC.Serializability
import Cassa.SiloCC.OneEpoch
import Cassa.SiloCC.DurableEpoch
import Cassa.SiloR.TamperEvidence
import Cassa.SiloR.CrashRecovery
import Cassa.SiloCC.Serial
import Cassa.SiloCC.SerialView
import Cassa.SiloCC.SerialCommit
import Cassa.SiloCC.SerialSemantics
import Cassa.SiloCC.OwnReads
import Cassa.SiloR.ReplayOnce
import Cassa.SiloR.RestartChain
import Cassa.SiloR.RestartTids
import Cassa.Server.Sessions
import Cassa.SiloR.LogMemory
import Cassa.Lib.SearchTree
import Cassa.Masstree.Key
import Cassa.Masstree.Node
import Cassa.Masstree.Insert
import Cassa.Masstree.Remove
import Cassa.Masstree.Border
import Cassa.Masstree.Arrays
import Cassa.Masstree.SplitPoint
import Cassa.Masstree.Layer
import Cassa.Masstree.Ascend
import Cassa.Masstree.Split
import Cassa.Masstree.InsertSpec
import Cassa.Masstree.KeyOrder
import Cassa.SiloCC.CommitOrder
import Cassa.Server.FailedRequests
import Cassa.SiloCC.EpochGap
import Cassa.SiloCC.WriteEffect
import Cassa.SiloCC.BufferPool
import Cassa.SiloCC.NidOrder
import Cassa.SiloCC.Persistence
import Cassa.SiloR.LogFile
import Cassa.Masstree.Operations
import Cassa.Masstree.Reachable
import Cassa.Masstree.SingleLayer
import Cassa.Masstree.Threads
import Cassa.Masstree.Scan
import Cassa.Masstree.ScanExact
import Cassa.Common.TlsFraming
import Cassa.Masstree.KeyCodec
import Cassa.Masstree.LayerInverse
import Cassa.Masstree.Version
import Cassa.SiloCC.NidDelivery
import Cassa.SiloR.EpochSlots
import Cassa.SiloR.HashPreimage
import Cassa.Client.Commands
import Cassa.Lib.Halting
import Cassa.Server.Assertions
import Cassa.Server.Wire
import Cassa.SiloR.HostileFiles
import Cassa.Masstree.Permutation
import Cassa.Masstree.Routing
import Cassa.Server.LoggerAffinity
import Cassa.SiloCC.ValueLifetime
import Cassa.Client.Session
import Cassa.Common.Random
import Cassa.Lib.Custody
import Cassa.Lib.Refinement
import Cassa.Masstree.OptimisticRead
import Cassa.Masstree.SortedMap
import Cassa.Server.Custody
import Cassa.Server.TypedRequests
import Cassa.SiloCC.OverMasstree
import Cassa.SiloCC.Deletes
