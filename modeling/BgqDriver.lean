import BgqDriver.GIBarrier
import BgqDriver.ClassroutePruning
import BgqDriver.ClassrouteIds
import BgqDriver.InjFifoBatches
import BgqDriver.RecFifo
import BgqDriver.ShmFSPinned
import BgqDriver.ShmFSPosix
import BgqDriver.RankAgreement
import BgqDriver.LocationAgreement
import BgqDriver.CollectiveTrees
import BgqDriver.L2BarrierRuns
import BgqDriver.RgetPacingCoverage
import BgqDriver.RgetPacingOrder
import BgqDriver.ThreadMigrationRuns
import BgqDriver.LogMergeQueue
import BgqDriver.RealtimeServerPeriods
import BgqDriver.MasterAliasesRuns
import BgqDriver.TimersArmed
import BgqDriver.InterruptMessagesRuns
import BgqDriver.UriText
import BgqDriver.FutexWakes
import BgqDriver.MmapAccounts
import BgqDriver.IncludedNodes
import BgqDriver.KernelBarrier
import BgqDriver.SleepTimes
import BgqDriver.MessageEscapes
import BgqDriver.RgetPacingLimit
import BgqDriver.L2Slice
import BgqDriver.Crc
