import AvilaNode.FlushInvisible
import AvilaNode.Bip9
import AvilaNode.BridgeServes
import AvilaNode.FilterFollows
import AvilaNode.ScripthashLog
import AvilaNode.FlatCoins
import AvilaNode.PartialMerkle
import AvilaNode.EpochRestart
import AvilaNode.BodyVerdicts
import AvilaNode.DownloadSlots
import AvilaNode.HeaderGate
import AvilaNode.WorstPackages
import AvilaNode.DescendantTotals
import AvilaNode.PoolReferences
import AvilaNode.FrameStream
import AvilaNode.BlockRuns
import AvilaNode.CompactExact
import AvilaNode.V2Session
import AvilaNode.HashCrash
import AvilaNode.AddressBijection
import AvilaNode.SnapshotResume
import AvilaNode.SwiftFlood
import AvilaNode.MiniscriptSound
import AvilaNode.SigOps
import AvilaNode.AdviceLockStep
import AvilaNode.FilterMatch
import AvilaNode.Locator
import AvilaNode.SnapshotRunExact
import AvilaNode.TxIndexLog
import AvilaNode.DifficultyBound
import AvilaNode.GetDataServe
import AvilaNode.SighashCaches
import AvilaNode.BlockConnection
import AvilaNode.OrphanSweep
import AvilaNode.PolicySteps
import AvilaNode.PsbtRoundTrip
import AvilaNode.AddrBook
import AvilaNode.Conditions
import AvilaNode.FindAndDelete
import AvilaNode.CleanCacheRuns
import AvilaNode.BornKeys
import AvilaNode.ChainRuns
import AvilaNode.ReorgCoins
import AvilaNode.MiniscriptAsserts
