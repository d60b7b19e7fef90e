import StampStore.Config.File
import StampStore.Scenario
import StampStore.Proofs.Snapshots
import StampStore.Proofs.Serializability
import StampStore.Proofs.HalfSeen
import StampStore.Proofs.Inserts
import StampStore.Proofs.Failures
import StampStore.Proofs.CommitCalls
import StampStore.Proofs.StampProgress
import StampStore.Proofs.ReadTimes
import StampStore.Proofs.MessageOrder
import StampStore.Proofs.CounterTotals
import StampStore.Proofs.UndisturbedReads
import StampStore.Proofs.FaultFreedom
import StampStore.Proofs.Footprints
import StampStore.Proofs.PartialWrites
import StampStore.Proofs.Rosters
import StampStore.Proofs.Plans
import StampStore.Proofs.MetricsBalance
import StampStore.Proofs.EarlyFaults
import StampStore.Proofs.ReadChecks
import StampStore.Proofs.CommitEffects
import StampStore.Proofs.FoldedDeltas
import StampStore.Proofs.ConflictErrors
import StampStore.Proofs.LockCalls
import StampStore.Proofs.Backoff
import StampStore.Proofs.TupleLayout
import StampStore.Proofs.SettingsFiles
