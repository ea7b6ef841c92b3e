import BtcSharp.Validation.CrashRecovery
import BtcSharp.Validation.FlagConsistency
import BtcSharp.Validation.PackageResults
import BtcSharp.Validation.TrucTopology
import BtcSharp.Node.BlockTemplate
import BtcSharp.CheckQueue.Progress
import BtcSharp.Index.Following
import BtcSharp.Net.RequestRuns
import BtcSharp.Node.PruneReplay
import BtcSharp.Index.CoinStatsExact
import BtcSharp.PartialMerkleTree
import BtcSharp.Consensus.SequenceLocks
import BtcSharp.VersionBits
import BtcSharp.Bech32.DropIn
import BtcSharp.Bech32.Distance
import BtcSharp.Interop.Lifecycle
import BtcSharp.Interop.Logging
import BtcSharp.ArithUint256
import BtcSharp.Validation.AncestorLimits
import BtcSharp.HeadersSync
import BtcSharp.Net.MessageTypes
import BtcSharp.Script.SignatureEncoding
import BtcSharp.SerialTaskRunner
