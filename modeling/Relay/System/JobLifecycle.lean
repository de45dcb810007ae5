import Relay.System.Execution
import Relay.Queue.Lifecycle

/-!
# The life of a job in the whole system

Whatever the processes do and in whatever order, each step of a run keeps to the life of the jobs
(`LifecycleStep`), and over the run no job is lost or changed behind its status: rows stay, with the
columns their producer fixed, those that are done stay as they are, and ids only grow (`lifecycle`).
-/

set_option autoImplicit false
set_option relaxedAutoImplicit false

namespace Relay.System

open Foundations Store Queue Scheduler Workers

/-- The ids of the inserts of a history that took effect. -/
def insertedIds (es : List Event) : List ℕ :=
  (es.filterMap Event.queue?).filterMap Queue.Event.insertedId?

/-- What a step may do to the jobs table. -/
structure LifecycleStep (before : State) (e : Event) (after : State) : Prop where
  /-- A status changes only by a transition of the life of a job. -/
  transition : ∀ j, ∀ old ∈ before.db.jobs.row? j, ∀ new ∈ after.db.jobs.row? j,
    new.status ≠ old.status → ∃ entry ∈ e.queue?, Transition j entry old.status new.status
  /-- A row appears by an insert, as a queued job, under an id above all ids before it. -/
  inserted : ∀ j, before.db.jobs.row? j = none → ∀ new ∈ after.db.jobs.row? j,
    new.status = .queued ∧ (∃ entry ∈ e.queue?, entry.insertedId? = some j) ∧
      ∀ old ∈ before.db.jobs.rows, old.id < j
  /-- A claim changes at most the row it returns. -/
  claim : ∀ workerId kinds leaseS now job,
    e.queue? = some ⟨.claim workerId kinds leaseS now, .claimed job⟩ →
    ∀ j, job.map JobRow.id ≠ some j → after.db.jobs.row? j = before.db.jobs.row? j
  /-- `ack`, `fail`, `bury` and `extend_lease` change at most the row they name. -/
  settle : ∀ kind jobId workerId now result,
    e.queue? = some ⟨.settle kind jobId workerId now, .settled result⟩ →
    ∀ j, j ≠ jobId → after.db.jobs.row? j = before.db.jobs.row? j
  /-- A call that raises `StaleLeaseError` leaves the database as it was. -/
  stale : ∀ kind jobId workerId now error,
    e.queue? = some ⟨.settle kind jobId workerId now, .settled (.error error)⟩ →
    after.db = before.db

variable {timeText : ℚ → String} {s t : State} {e : Event} {es : List Event}

/-- A step leaves a job as it is, or takes one of the steps of the queue on it. -/
theorem Step.jobRow (h : Step timeText s e t) (j : ℕ) :
    t.db.jobs.row? j = s.db.jobs.row? j ∨
      ∃ entry ∈ e.queue?, RowStep j entry (s.db.jobs.row? j) (t.db.jobs.row? j) := by
  obtain ⟨hnone, hsome⟩ := h.queue_step
  cases hentry : e.queue? with
  | none => exact .inl (by rw [hnone hentry])
  | some entry => exact .inr ⟨entry, rfl, (hsome entry hentry).rowStep j⟩

/-- A statement of the queue that does not name a job leaves its row as it is. -/
theorem Step.row?_eq_of_not_touches (h : Step timeText s e t) {entry : Queue.Event ℚ}
    (hentry : e.queue? = some entry) {j : ℕ} (hj : ¬ entry.Touches j) :
    t.db.jobs.row? j = s.db.jobs.row? j := by
  have hstep := (h.queue_step.2 entry hentry).rowStep j
  generalize s.db.jobs.row? j = old at hstep ⊢
  generalize t.db.jobs.row? j = new at hstep ⊢
  cases hstep with
  | untouched _ _ => rfl
  | onInsert args => exact absurd rfl hj
  | onClaim workerId kinds leaseS now hid => exact absurd (congrArg some hid) hj
  | onSettle kind workerId now => exact absurd ⟨rfl, rfl⟩ hj
  | onRelease now ids hmem => exact absurd hmem hj
  | onRequeue jobId now ids hmem => exact absurd hmem hj

theorem Step.lifecycleStep (h : Step timeText s e t) : LifecycleStep s e t where
  transition := by
    intro j old hold new hnew hne
    rcases h.jobRow j with hsame | ⟨entry, hentry, hstep⟩
    · rw [Option.mem_def.mp hold, Option.mem_def.mp hnew] at hsame
      exact absurd (congrArg JobRow.status (Option.some.inj hsame)) hne
    · rw [Option.mem_def.mp hold, Option.mem_def.mp hnew] at hstep
      exact ⟨entry, hentry, hstep.transition hne⟩
  inserted := by
    intro j hnone new hnew
    rcases h.jobRow j with hsame | ⟨entry, hentry, hstep⟩
    · rw [hnone, Option.mem_def.mp hnew] at hsame
      cases hsame
    · rw [hnone, Option.mem_def.mp hnew] at hstep
      obtain ⟨hstatus, hid⟩ := hstep.inserted
      refine ⟨hstatus, ⟨entry, hentry, hid⟩, fun old hold ↦ ?_⟩
      have habove := ((h.queue_step.2 entry hentry).sequence.2 j hid).1
      exact (s.db.jobs.bounded old hold).trans_lt habove
  claim := by
    intro workerId kinds leaseS now job hentry j hj
    exact h.row?_eq_of_not_touches hentry hj
  settle := by
    intro kind jobId workerId now result hentry j hj
    exact h.row?_eq_of_not_touches hentry fun htouch ↦ hj htouch.1.symm
  stale := by
    intro kind jobId workerId now error hentry
    obtain ⟨hjobs, hreply⟩ := Prod.mk.inj (h.queue_step.2 _ hentry)
    have herror : (Queue.settle s.db.jobs kind jobId workerId now).2 = .error error :=
      Reply.settled.inj hreply
    have hsame := congrArg Prod.fst (settle_error (by rw [herror]; exact nofun))
    exact Database.ext (hjobs.symm.trans hsame) (h.schedules_eq hentry)

/-- The life of the jobs over a run: every step keeps to it; no row is removed and no step writes
the columns its producer fixed; a job that is done stays as it is; and the ids handed out increase,
from above those of all rows at the start. -/
theorem lifecycle (hrun : Run (Step timeText) s es t) :
    Run (Throughout (Step timeText) LifecycleStep) s es t ∧
    (∀ row ∈ s.db.jobs.rows, ∃ row' ∈ t.db.jobs.row? row.id, row'.ticket = row.ticket ∧
      (row.status = .done → row' = row)) ∧
    (insertedIds es).Pairwise (· < ·) ∧
    ∀ row ∈ s.db.jobs.rows, ∀ id ∈ insertedIds es, row.id < id := by
  have hqueue := run_queue hrun
  obtain ⟨hincreasing, -, hbounds⟩ := insertedIds_increasing hqueue
  refine ⟨hrun.mono fun _ _ _ h ↦ ⟨h, h.lifecycleStep⟩, fun row hrow ↦ ?_, hincreasing,
    fun row hrow id hid ↦ ?_⟩
  · obtain ⟨row', hrow', hticket⟩ := ticket_of_run hqueue (Jobs.row?_of_mem hrow)
    refine ⟨row', hrow', hticket, fun hdone ↦ ?_⟩
    exact Option.mem_unique hrow' (done_of_run hqueue (Jobs.row?_of_mem hrow) hdone)
  · exact (s.db.jobs.bounded row hrow).trans_lt (hbounds id hid).1

/-- A job that fails once, is claimed again and acknowledged, and a heartbeat that is too late. -/
def retriedJob : List Action :=
  [.enqueue 0 ⟨"email", "null", 0, 5, 0, some "k", 0⟩, .claim 1 ⟨"w1", 60, 1, 300, ["email"]⟩ 0,
    .handled 1 (.exception (.ok "ValueError()")), .resume 1,
    .claim 2 ⟨"w1", 60, 1, 300, ["email"]⟩ 5, .handled 2 .returned, .resume 2,
    .call (.settle (.extendLease 60) 1 (some "w1") 6)]

theorem lifecycle_retriedJob :
    (insertedIds (runActions wholeSeconds (.start .empty) retriedJob).1).Pairwise (· < ·) :=
  (lifecycle (run_runActions wholeSeconds (.start .empty) retriedJob)).2.2.1

end Relay.System
