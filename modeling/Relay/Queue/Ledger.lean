import Relay.Queue.Counts
import Relay.Queue.Completion

/-!
# The ledger of the queue

The history of a queue is a ledger of its deliveries: a claim starts one, and an `ack`, `fail` or
`bury` or the reaper ends it. The deliveries of one job never overlap: at any point of a history as
many have been started as ended, and one more while the job is leased. The numbers that `stats`
reports are the balances of the ledger (`stats_ledger`), whatever the times and the order of the
statements.
-/

set_option autoImplicit false
set_option relaxedAutoImplicit false

namespace Relay.Queue

open Foundations Store

variable {τ : Type*} {j : ℕ}

/-- The job that the step adds. -/
def Event.inserts (e : Event τ) : Finset ℕ := e.insertedId?.toFinset

/-- The job that the step retires. -/
def Event.acks : Event τ → Finset ℕ
  | ⟨.settle .ack jobId _ _, .settled (.ok ())⟩ => {jobId}
  | _ => ∅

theorem Event.touches_of_mem_inserts {e : Event τ} (h : j ∈ e.inserts) : e.Touches j := by
  unfold Event.inserts Event.insertedId? at h
  split at h
  · simpa [Event.Touches] using h
  · simp at h

theorem Event.touches_of_mem_acks {e : Event τ} (h : j ∈ e.acks) : e.Touches j := by
  unfold Event.acks at h
  split at h
  · rw [Finset.mem_singleton] at h
    exact ⟨h.symm, rfl⟩
  · simp at h

/-- 1 for a row with the status. -/
def JobRow.counts (status : Status) (row : JobRow τ) : ℕ := if row.status = status then 1 else 0

theorem statusCount_eq_sum (jobs : Jobs τ) (status : Status) :
    statusCount jobs status = (jobs.rows.map (JobRow.counts status)).sum :=
  Table.countP_eq_sum jobs.rows fun row ↦ row.status = status

section Machine

variable [Add τ] [LinearOrder τ] {e : Event τ} {es : List (Event τ)} {jobs jobs' : Jobs τ}

/-! ### What a step books on one job -/

theorem RowStep.leased_balance {row? row?' : Option (JobRow τ)} (h : RowStep j e row? row?') :
    row?'.elim 0 (JobRow.counts .leased) + (if j ∈ e.stops then 1 else 0) =
      row?.elim 0 (JobRow.counts .leased) + (if j ∈ e.starts then 1 else 0) := by
  cases h with
  | onInsert args => simp [JobRow.counts, EnqueueArgs.row, Event.stops, Event.starts]
  | onClaim workerId kinds leaseS now hid hclaim =>
    simp [JobRow.counts, hclaim.1.1, claimed, hid, Event.stops, Event.starts]
  | @onSettle row kind workerId now hguard =>
    have hleased := hguard.2.1
    cases kind with
    | fail error retryIn =>
      by_cases hspent : Exhausted row <;>
        simp [JobRow.counts, SettleKind.set, hspent, hleased, Event.stops, Event.starts]
    | _ => simp [JobRow.counts, SettleKind.set, hleased, Event.stops, Event.starts]
  | @onRelease row now ids hmem hexpired =>
    have hleased := hexpired.1
    by_cases hspent : Exhausted row <;>
      simp [JobRow.counts, released, hspent, hleased, hmem, Event.stops, Event.starts]
  | onRequeue jobId now ids hmem hdead =>
    simp [JobRow.counts, requeued, hdead.1, Event.stops, Event.starts]
  | untouched _ htouch =>
    rw [if_neg (mt Event.touches_of_mem_stops htouch),
      if_neg (mt Event.touches_of_mem_starts htouch)]

theorem RowStep.done_balance {row? row?' : Option (JobRow τ)} (h : RowStep j e row? row?') :
    row?'.elim 0 (JobRow.counts .done) + (if j ∈ (∅ : Finset ℕ) then 1 else 0) =
      row?.elim 0 (JobRow.counts .done) + (if j ∈ e.acks then 1 else 0) := by
  cases h with
  | onInsert args => simp [JobRow.counts, EnqueueArgs.row, Event.acks]
  | onClaim workerId kinds leaseS now hid hclaim =>
    simp [JobRow.counts, hclaim.1.1, claimed, Event.acks]
  | @onSettle row kind workerId now hguard =>
    have hleased := hguard.2.1
    cases kind with
    | fail error retryIn =>
      by_cases hspent : Exhausted row <;>
        simp [JobRow.counts, SettleKind.set, hspent, hleased, Event.acks]
    | _ => simp [JobRow.counts, SettleKind.set, hleased, Event.acks]
  | @onRelease row now ids hmem hexpired =>
    have hleased := hexpired.1
    by_cases hspent : Exhausted row <;>
      simp [JobRow.counts, released, hspent, hleased, Event.acks]
  | onRequeue jobId now ids hmem hdead => simp [JobRow.counts, requeued, hdead.1, Event.acks]
  | untouched _ htouch => simp [mt Event.touches_of_mem_acks htouch]

theorem RowStep.row_balance {row? row?' : Option (JobRow τ)} (h : RowStep j e row? row?') :
    row?'.elim 0 (fun _ ↦ 1) + (if j ∈ (∅ : Finset ℕ) then 1 else 0) =
      row?.elim 0 (fun _ ↦ 1) + (if j ∈ e.inserts then 1 else 0) := by
  cases h with
  | untouched _ htouch => simp [mt Event.touches_of_mem_inserts htouch]
  | _ => simp [Event.inserts, Event.insertedId?]

/-! ### The balances -/

theorem Step.leased_balance (h : Step jobs e jobs') :
    statusCount jobs' .leased + e.stops.card = statusCount jobs .leased + e.starts.card := by
  rw [statusCount_eq_sum, statusCount_eq_sum]
  exact Table.sum_add_card_eq jobs.distinct jobs'.distinct fun j ↦ (h.rowStep j).leased_balance

theorem Step.done_balance (h : Step jobs e jobs') :
    statusCount jobs' .done = statusCount jobs .done + e.acks.card := by
  rw [statusCount_eq_sum, statusCount_eq_sum]
  exact Table.sum_add_card_eq jobs.distinct jobs'.distinct fun j ↦ (h.rowStep j).done_balance

theorem Step.row_balance (h : Step jobs e jobs') :
    jobs'.rows.length = jobs.rows.length + e.inserts.card := by
  have hsum : (jobs'.rows.map fun _ ↦ 1).sum + (∅ : Finset ℕ).card =
      (jobs.rows.map fun _ ↦ 1).sum + e.inserts.card :=
    Table.sum_add_card_eq jobs.distinct jobs'.distinct fun j ↦ (h.rowStep j).row_balance
  simpa using hsum

/-- The ledger of a run from an empty table. A job has had as many deliveries started as ended, and
one more while it is leased. What `stats` counts are the balances: the leased jobs are the
deliveries started and not ended, the done ones those acked, and all jobs those inserted. -/
theorem stats_ledger (h : Run Step Jobs.empty es jobs) (now : τ) :
    (∀ j, (es.countP fun e ↦ j ∈ e.starts) =
      (es.countP fun e ↦ j ∈ e.stops) + (jobs.row? j).elim 0 (JobRow.counts .leased)) ∧
    (stats jobs now).leased + (es.map fun e ↦ e.stops.card).sum =
      (es.map fun e ↦ e.starts.card).sum ∧
    (stats jobs now).done = (es.map fun e ↦ e.acks.card).sum ∧
    (stats jobs now).queued + (stats jobs now).leased + (stats jobs now).done +
      (stats jobs now).dead = (es.map fun e ↦ e.inserts.card).sum := by
  refine ⟨fun j ↦ ?_, ?_, ?_, ?_⟩
  · have hbalance := (run_row h j).balance (fun row? ↦ row?.elim 0 (JobRow.counts .leased))
      (fun e ↦ if j ∈ e.starts then 1 else 0) (fun e ↦ if j ∈ e.stops then 1 else 0)
      fun _ _ _ hstep ↦ hstep.leased_balance
    rw [Table.countP_eq_sum es fun e ↦ j ∈ e.starts, Table.countP_eq_sum es fun e ↦ j ∈ e.stops]
    simp only [Jobs.row?_empty, Option.elim_none, zero_add] at hbalance
    omega
  · have hbalance := h.balance (fun jobs ↦ statusCount jobs .leased) (fun e ↦ e.starts.card)
      (fun e ↦ e.stops.card) fun _ _ _ hstep ↦ hstep.leased_balance
    simpa [stats, statusCount, Jobs.empty] using hbalance
  · have hbalance := h.balance (fun jobs ↦ statusCount jobs .done) (fun e ↦ e.acks.card)
      (fun _ ↦ 0) fun _ _ _ hstep ↦ hstep.done_balance
    simpa [stats, statusCount, Jobs.empty] using hbalance
  · have hbalance := h.balance (fun jobs ↦ jobs.rows.length) (fun e ↦ e.inserts.card)
      (fun _ ↦ 0) fun _ _ _ hstep ↦ hstep.row_balance
    have hrows := sum_statusCount jobs
    have hinserts : jobs.rows.length = (es.map fun e ↦ e.inserts.card).sum := by
      simpa [Jobs.empty] using hbalance
    rw [← hinserts, ← hrows]
    rfl

end Machine

/-- A job that is claimed, given back, claimed again and acked, beside one that stays leased. -/
def twoJobs : List (Statement ℕ) :=
  [.insert ⟨"email", "null", 0, 5, 0, none, 0⟩, .insert ⟨"report", "null", 0, 5, 0, none, 0⟩,
    .claim (some "w1") none 60 0, .settle (.fail "boom" 0) 1 (some "w1") 1,
    .claim (some "w2") none 60 2, .settle (.extendLease 60) 1 (some "w2") 3,
    .claim (some "w1") none 60 3, .settle .ack 1 (some "w2") 4]

theorem stats_ledger_twoJobs :
    stats (exec Jobs.empty twoJobs).2 9 = ⟨0, 1, 1, 0, 0⟩ ∧
      (stats (exec Jobs.empty twoJobs).2 9).leased +
          ((exec Jobs.empty twoJobs).1.map fun e ↦ e.stops.card).sum =
        ((exec Jobs.empty twoJobs).1.map fun e ↦ e.starts.card).sum :=
  ⟨by decide, (stats_ledger (run_exec Jobs.empty twoJobs) 9).2.1⟩

end Relay.Queue
