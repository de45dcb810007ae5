import Relay.Foundations.Run
import Relay.Foundations.InfiniteRun
import Relay.Foundations.Commute
import Relay.Foundations.Table
import Relay.Foundations.Lease
import Relay.Foundations.Grid
import Relay.Foundations.GridWalk
import Relay.Store.Schema
import Relay.Queue.Operations
import Relay.Queue.RowMachine
import Relay.Queue.RowInvariants
import Relay.Queue.ExclusiveLease
import Relay.Queue.LeaseGrants
import Relay.Queue.LastClaim
import Relay.Queue.RedoLog
import Relay.Queue.ClockChange
import Relay.Queue.Lifecycle
import Relay.Queue.Counts
import Relay.Queue.Completion
import Relay.Queue.Ledger
import Relay.Queue.Keys
import Relay.Queue.KindIsolation
import Relay.Queue.DeliveryBudget
import Relay.Queue.Drain
import Relay.Queue.Overtaking
import Relay.Queue.Reordering
import Relay.Scheduler.Operations
import Relay.Scheduler.SlotKeys
import Relay.Workers.Operations
import Relay.Workers.RunOnce
import Relay.System.Interleaving
import Relay.System.Execution
import Relay.System.Ticks
import Relay.System.AtLeastOnce
import Relay.System.Clock
import Relay.System.WorkerLoop
import Relay.System.LoopProgress
import Relay.System.ContinuingLoad
import Relay.System.SettleClock
import Relay.System.DeliveryFencing
import Relay.System.RetryBackoff
import Relay.System.HandlerRuns
import Relay.System.SlotFiring
import Relay.System.FiringRate
import Relay.System.NoBackfill
import Relay.System.ScheduleReplacement
import Relay.System.JobLifecycle
import Relay.System.RowCoherence
import Relay.System.IdempotentEnqueue
import Relay.System.WholeCalls
import Relay.System.SimultaneousTicks
import Relay.System.CallRuns
import Relay.System.ScheduleGrid
import Relay.System.SlotCoverage
import Relay.System.ScheduleIsolation
import Relay.System.StatsReads
import Relay.Cli.Main
import Relay.Cli.DeadLetters
