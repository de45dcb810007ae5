import Relay.Queue.Lifecycle

/-!
# What `stats` counts

`stats` reads the table twice. `countsOf_groupedCounts` says what its loop over the rows of the
first `SELECT` makes of them, and `Stats.ofReads` puts the answer together from the two reads.

A step changes a count by the jobs it names. The status counts stay as they are when it moves no job
(`statusCount_eq_of_run`), the ready count when it moves none into or out of the jobs that are
queued and due (`readyCount_eq_of_run`), and the number of queued jobs grows by no more than the
jobs that arrive in the queue (`queued_le_of_run`).
-/

set_option autoImplicit false
set_option relaxedAutoImplicit false

namespace Relay.Queue

open Foundations Store

variable {τ : Type*} {j : ℕ}

/-! ### The two reads -/

/-- `SELECT status, COUNT(*) AS n FROM jobs GROUP BY status`. -/
def groupedCounts (jobs : Jobs τ) : List (Status × ℕ) := Table.groupCounts JobRow.status jobs.rows

/-- `counts`, which has 0 for every valid status, after the loop over these rows. -/
def countsOf (groups : List (Status × ℕ)) : Status → ℕ := Table.assign (fun _ ↦ 0) groups

/-- The `SELECT` has no `ORDER BY`; in any order its rows make the counts per status. -/
theorem countsOf_groupedCounts {jobs : Jobs τ} {groups : List (Status × ℕ)}
    (hgroups : groups.Perm (groupedCounts jobs)) : countsOf groups = statusCount jobs :=
  funext fun status ↦ Table.assign_groupCounts hgroups status

/-- What `stats` returns for what its two statements have read. -/
def Stats.ofReads (counts : Status → ℕ) (ready : ℕ) : Stats where
  queued := counts .queued
  leased := counts .leased
  done := counts .done
  dead := counts .dead
  ready := ready

/-- Every job has one of the four statuses. -/
theorem sum_statusCount (jobs : Jobs τ) :
    statusCount jobs .queued + statusCount jobs .leased + statusCount jobs .done +
      statusCount jobs .dead = jobs.rows.length := by
  unfold statusCount
  induction jobs.rows with
  | nil => rfl
  | cons row rows ih =>
    simp only [List.countP_cons, List.length_cons]
    cases row.status <;> simp <;> omega

section Machine

variable [LinearOrder τ]

theorem stats_eq_ofReads (jobs : Jobs τ) (now : τ) :
    stats jobs now = .ofReads (statusCount jobs) (readyCount jobs now) := rfl

/-- The answer is that of every table with the status counts of the first read and the ready count
of the second. -/
theorem ofReads_eq_stats {first second jobs : Jobs τ} {now : τ}
    (hfirst : ∀ status, statusCount jobs status = statusCount first status)
    (hsecond : readyCount second now = readyCount jobs now) :
    Stats.ofReads (statusCount first) (readyCount second now) = stats jobs now := by
  rw [stats_eq_ofReads, hsecond, funext hfirst]

/-- In one table the ready jobs are among the queued ones. -/
theorem readyCount_le (jobs : Jobs τ) (now : τ) : readyCount jobs now ≤ statusCount jobs .queued :=
  List.countP_mono_left fun row _ hready ↦ by
    simpa using (of_decide_eq_true hready).1

theorem not_ready_of_status {row : JobRow τ} {status : Status} (hstatus : row.status = status)
    (hne : status ≠ .queued) (now : τ) : ¬ Ready now row :=
  fun hready ↦ hne (hstatus.symm.trans hready.1)

end Machine

/-! ### What a step does to a count -/

/-- The step inserted job `j` or is one of its changes of status. -/
def Event.Moves (j : ℕ) (e : Event τ) : Prop :=
  e.insertedId? = some j ∨ ∃ old new, Transition j e old new

/-- The jobs the step may have put into the queue: a `fail` or `release_expired` may also have sent
its job to `dead`. -/
def Event.arrivals : Event τ → List ℕ
  | ⟨.insert _, .inserted id⟩ => id.toList
  | ⟨.settle (.fail ..) jobId _ _, .settled (.ok ())⟩ => [jobId]
  | ⟨_, .touched ids⟩ => ids
  | _ => []

/-- The step may have moved job `j` into or out of the queued jobs that are due at a time. -/
def Event.MovesReady [Add τ] [LE τ] (now : τ) (j : ℕ) : Event τ → Prop
  | ⟨.insert args, .inserted id⟩ => id = some j ∧ args.now + args.delayS ≤ now
  | ⟨.claim .., .claimed job⟩ => ∃ row ∈ job, row.id = j ∧ row.notBefore ≤ now
  | ⟨.settle (.fail _ retryIn) jobId _ time, .settled result⟩ =>
    jobId = j ∧ result = .ok () ∧ time + retryIn ≤ now
  | ⟨.releaseExpired _, .touched ids⟩ => j ∈ ids
  | ⟨.requeueDead _ time, .touched ids⟩ => j ∈ ids ∧ time ≤ now
  | _ => False

theorem Event.mem_arrivals_of_insertedId? {e : Event τ} (h : e.insertedId? = some j) :
    j ∈ e.arrivals := by
  unfold Event.insertedId? at h
  split at h
  · rw [h]
    exact List.mem_singleton_self j
  · cases h

theorem Transition.mem_arrivals {e : Event τ} {old : Status} (h : Transition j e old .queued) :
    j ∈ e.arrivals := by
  cases h with
  | fail _ _ _ _ _ => exact List.mem_singleton_self j
  | releaseExpired _ hmem _ => exact hmem
  | requeueDead _ _ hmem => exact hmem

section Machine

variable [Add τ] [LinearOrder τ] {e : Event τ} {es : List (Event τ)} {jobs jobs' : Jobs τ}

/-- A job that is queued after a step was queued before it or arrives by it. -/
theorem RowStep.queued_or_arrives {row? : Option (JobRow τ)} {row : JobRow τ}
    (h : RowStep j e row? (some row)) (hqueued : row.status = .queued) :
    (∃ old, row? = some old ∧ old.status = .queued) ∨ j ∈ e.arrivals := by
  cases row? with
  | none => exact .inr (Event.mem_arrivals_of_insertedId? h.inserted.2)
  | some old =>
    by_cases hsame : row.status = old.status
    · exact .inl ⟨old, rfl, hsame ▸ hqueued⟩
    · have htransition := h.transition hsame
      rw [hqueued] at htransition
      exact .inr htransition.mem_arrivals

/-- A step that does not move a job leaves its status as it is. -/
theorem RowStep.status_eq {row? row?' : Option (JobRow τ)} (h : RowStep j e row? row?')
    (hmoves : ¬ e.Moves j) : row?'.map JobRow.status = row?.map JobRow.status := by
  cases row? with
  | none =>
    cases row?' with
    | none => rfl
    | some row => exact absurd (.inl h.inserted.2) hmoves
  | some old =>
    obtain ⟨row, rfl, -⟩ := h.ticket
    by_contra hne
    exact hmoves (.inr ⟨_, _, h.transition fun heq ↦ hne (congrArg some heq)⟩)

/-- A step that does not move a job into or out of the ready ones leaves it ready or not. -/
theorem RowStep.ready_iff {row? row?' : Option (JobRow τ)} (h : RowStep j e row? row?') {now : τ}
    (hmoves : ¬ e.MovesReady now j) :
    (∃ row, row?' = some row ∧ Ready now row) ↔ ∃ row, row? = some row ∧ Ready now row := by
  cases h with
  | onInsert args =>
    have hlater : ¬ Ready now (args.row j) := fun hready ↦ hmoves ⟨rfl, hready.2⟩
    simpa using hlater
  | @onClaim row workerId kinds leaseS time hid hclaim =>
    have hbefore : ¬ Ready now row := fun hready ↦ hmoves ⟨_, rfl, hid, hready.2⟩
    have hafter : ¬ Ready now (claimed workerId leaseS time row) :=
      not_ready_of_status rfl (by simp [claimed]) now
    simp [hbefore, hafter]
  | @onSettle row kind workerId time hguard =>
    have hbefore : ¬ Ready now row := not_ready_of_status hguard.2.1 (by simp) now
    have hafter : ¬ Ready now (kind.set time row) := by
      cases kind with
      | ack => exact not_ready_of_status rfl (by simp [SettleKind.set]) now
      | fail error retryIn => exact fun hready ↦ hmoves ⟨rfl, rfl, hready.2⟩
      | bury error => exact not_ready_of_status rfl (by simp [SettleKind.set]) now
      | extendLease leaseS => exact not_ready_of_status hguard.2.1 (by simp) now
    simp [hbefore, hafter]
  | onRelease time ids hmem hexpired => exact absurd hmem hmoves
  | @onRequeue row jobId time ids hmem hdead =>
    have hbefore : ¬ Ready now row := not_ready_of_status hdead.1 (by simp) now
    have hafter : ¬ Ready now (requeued time row) := fun hready ↦ hmoves ⟨hmem, hready.2⟩
    simp [hbefore, hafter]
  | untouched _ _ => rfl

theorem Step.statusCount_eq (h : Step jobs e jobs') (hmoves : ∀ j, ¬ e.Moves j)
    (status : Status) : statusCount jobs' status = statusCount jobs status := by
  refine Table.countP_congr jobs.distinct jobs'.distinct fun j ↦ ?_
  have hstatus := (h.rowStep j).status_eq (hmoves j)
  have hcount : ∀ row? : Option (JobRow τ), (∃ row, row? = some row ∧ row.status = status) ↔
      row?.map JobRow.status = some status := fun row? ↦ Option.map_eq_some_iff.symm
  rw [← Jobs.row?, ← Jobs.row?, hcount, hcount, hstatus]

theorem Step.readyCount_eq (h : Step jobs e jobs') {now : τ} (hmoves : ∀ j, ¬ e.MovesReady now j) :
    readyCount jobs' now = readyCount jobs now :=
  Table.countP_congr jobs.distinct jobs'.distinct fun j ↦ (h.rowStep j).ready_iff (hmoves j)

/-! ### What a run does to a count -/

theorem statusCount_eq_of_run (h : Run Step jobs es jobs') (hmoves : ∀ e ∈ es, ∀ j, ¬ e.Moves j)
    (status : Status) : statusCount jobs' status = statusCount jobs status := by
  refine h.view_of_labels (fun e ↦ ∀ j, ¬ e.Moves j) (fun table ↦ statusCount table status) ?_
    hmoves
  intro table e table' hmoves hstep
  exact hstep.statusCount_eq hmoves status

theorem readyCount_eq_of_run (h : Run Step jobs es jobs') {now : τ}
    (hmoves : ∀ e ∈ es, ∀ j, ¬ e.MovesReady now j) :
    readyCount jobs' now = readyCount jobs now := by
  refine h.view_of_labels (fun e ↦ ∀ j, ¬ e.MovesReady now j) (fun table ↦ readyCount table now) ?_
    hmoves
  intro table e table' hmoves hstep
  exact hstep.readyCount_eq hmoves

/-- A job that is queued at the end of a run was queued at its start or has arrived in it. -/
theorem queued_or_arrived (h : Run Step jobs es jobs') {row : JobRow τ}
    (hrow : jobs'.row? j = some row) (hqueued : row.status = .queued) :
    (∃ old, jobs.row? j = some old ∧ old.status = .queued) ∨ j ∈ es.flatMap Event.arrivals := by
  induction h with
  | nil => exact .inl ⟨row, hrow, hqueued⟩
  | @cons first between last e es head _ ih =>
    rw [List.flatMap_cons, List.mem_append]
    rcases ih hrow with ⟨old, hold, hold'⟩ | harrived
    · have hstep := head.rowStep j
      rw [hold] at hstep
      exact (hstep.queued_or_arrives hold').imp_right .inl
    · exact .inr (.inr harrived)

/-- The number of queued jobs grows by no more than the number of jobs that arrive. -/
theorem queued_le_of_run (h : Run Step jobs es jobs') :
    statusCount jobs' .queued ≤
      statusCount jobs .queued + (es.flatMap Event.arrivals).toFinset.card := by
  refine Table.countP_le_add_card jobs.distinct jobs'.distinct fun j row hrow hqueued ↦ ?_
  rw [List.mem_toFinset]
  exact queued_or_arrived h hrow hqueued

end Machine

end Relay.Queue
