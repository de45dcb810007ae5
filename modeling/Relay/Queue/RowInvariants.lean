import Relay.Queue.RowMachine

/-!
# What every row satisfies

`Coherent` collects what the statements of the queue keep true of each row, whatever their
arguments: the deadline is set exactly while the row is leased, a queued or dead row has no worker,
a row that has left `queued` has been delivered, and the attempts stay within the budget. Each
step keeps it (`RowStep.coherent`), so every row of a run from an empty database has it
(`coherent_of_run`). `RowStep.ticket` is the frame of all of them: no step writes the columns the
producer fixed.
-/

set_option autoImplicit false
set_option relaxedAutoImplicit false

namespace Relay.Queue

open Foundations Store

variable {τ : Type*}

/-- The columns a job's life is written in agree with its status. -/
structure Coherent (row : JobRow τ) : Prop where
  deadline : row.leaseUntil.isSome ↔ row.status = .leased
  unowned : row.status = .queued ∨ row.status = .dead → row.workerId = none
  delivered : row.status ≠ .queued → 1 ≤ row.attempts
  budget : (row.attempts : ℤ) ≤ max 1 row.maxAttempts
  retryable : row.status = .queued → 0 < row.attempts → (row.attempts : ℤ) < row.maxAttempts

theorem coherent_row [Add τ] (args : EnqueueArgs τ) (id : ℕ) : Coherent (args.row id) where
  deadline := by simp [EnqueueArgs.row]
  unowned := fun _ ↦ rfl
  delivered := by simp [EnqueueArgs.row]
  budget := by simp [EnqueueArgs.row]
  retryable := by simp [EnqueueArgs.row]

theorem Coherent.claimed [Add τ] {row : JobRow τ} (h : Coherent row)
    (hqueued : row.status = .queued) (workerId : Option String) (leaseS now : τ) :
    Coherent (claimed workerId leaseS now row) where
  deadline := by simp [Queue.claimed]
  unowned := by simp [Queue.claimed]
  delivered := by simp [Queue.claimed]
  budget := by
    have := h.retryable hqueued
    simp only [Queue.claimed]
    omega
  retryable := by simp [Queue.claimed]

/-- Where a delivery ends without being settled for good: dead when the attempts are used up, and
queued otherwise. -/
theorem Coherent.ended {row : JobRow τ} (h : Coherent row) (hleased : row.status = .leased)
    {row' : JobRow τ} (hstatus : row'.status = if Exhausted row then .dead else .queued)
    (hlease : row'.leaseUntil = none) (hworker : row'.workerId = none)
    (hattempts : row'.attempts = row.attempts) (hmax : row'.maxAttempts = row.maxAttempts) :
    Coherent row' where
  deadline := by
    rw [hlease, hstatus]
    split_ifs <;> simp
  unowned := fun _ ↦ hworker
  delivered := fun _ ↦ hattempts ▸ h.delivered (by simp [hleased])
  budget := by
    rw [hattempts, hmax]
    exact h.budget
  retryable := by
    rw [hattempts, hmax, hstatus]
    intro hqueued _
    by_contra hnot
    have hspent : Exhausted row := not_lt.mp hnot
    rw [if_pos hspent] at hqueued
    cases hqueued

theorem Coherent.set [Add τ] {row : JobRow τ} (h : Coherent row) (hleased : row.status = .leased)
    (kind : SettleKind τ) (now : τ) : Coherent (kind.set now row) := by
  have hdelivered : 1 ≤ row.attempts := h.delivered (by simp [hleased])
  cases kind with
  | ack =>
    exact ⟨by simp [SettleKind.set], by simp [SettleKind.set], fun _ ↦ hdelivered, h.budget,
      by simp [SettleKind.set]⟩
  | fail error retryIn => exact h.ended hleased rfl rfl rfl rfl rfl
  | bury error =>
    exact ⟨by simp [SettleKind.set], fun _ ↦ rfl, fun _ ↦ hdelivered, h.budget,
      by simp [SettleKind.set]⟩
  | extendLease leaseS =>
    exact ⟨by simp [SettleKind.set, hleased], by simp [SettleKind.set, hleased],
      fun _ ↦ hdelivered, h.budget, by simp [SettleKind.set, hleased]⟩

theorem Coherent.requeued {row : JobRow τ} (h : Coherent row) (hdead : row.status = .dead)
    (now : τ) : Coherent (requeued now row) where
  deadline := by
    have := h.deadline
    simp_all [Queue.requeued]
  unowned := fun _ ↦ h.unowned (.inr hdead)
  delivered := by simp [Queue.requeued]
  budget := by simp [Queue.requeued]
  retryable := by simp [Queue.requeued]

section Machine

variable [Add τ] [LinearOrder τ] {j : ℕ} {e : Event τ}

/-- Every step keeps the rows coherent. -/
theorem RowStep.coherent {row? row?' : Option (JobRow τ)} (h : RowStep j e row? row?')
    (hrow : ∀ row ∈ row?, Coherent row) : ∀ row ∈ row?', Coherent row := by
  cases h with
  | onInsert args =>
    rintro _ ⟨⟩
    exact coherent_row args j
  | onClaim workerId kinds leaseS now _ hclaim =>
    rintro _ ⟨⟩
    exact (hrow _ rfl).claimed hclaim.1.1 workerId leaseS now
  | onSettle kind workerId now hguard =>
    rintro _ ⟨⟩
    exact (hrow _ rfl).set hguard.2.1 kind now
  | onRelease now ids _ hexpired =>
    rintro _ ⟨⟩
    exact (hrow _ rfl).ended hexpired.1 rfl rfl rfl rfl rfl
  | onRequeue jobId now ids _ hdead =>
    rintro _ ⟨⟩
    exact (hrow _ rfl).requeued hdead.1 now
  | untouched _ _ => exact hrow

/-- No step removes a row or writes the columns its producer fixed. -/
theorem RowStep.ticket {row : JobRow τ} {row?' : Option (JobRow τ)}
    (h : RowStep j e (some row) row?') : ∃ row', row?' = some row' ∧ row'.ticket = row.ticket := by
  cases h with
  | onClaim workerId kinds leaseS now => exact ⟨_, rfl, ticket_claimed workerId leaseS now row⟩
  | onSettle kind workerId now => exact ⟨_, rfl, kind.ticket_set now row⟩
  | onRelease now => exact ⟨_, rfl, ticket_released now row⟩
  | onRequeue jobId now => exact ⟨_, rfl, ticket_requeued now row⟩
  | untouched _ _ => exact ⟨row, rfl, rfl⟩

/-- A queued row is claimed or stays as it is. -/
theorem RowStep.queued {row : JobRow τ} {row?' : Option (JobRow τ)}
    (h : RowStep j e (some row) row?') (hqueued : row.status = .queued) :
    (row?' = some row ∧ ¬ e.Claims j) ∨ ∃ workerId kinds leaseS now,
      e = ⟨.claim workerId kinds leaseS now, .claimed (some (claimed workerId leaseS now row))⟩ ∧
      Claimable kinds now row ∧ row?' = some (claimed workerId leaseS now row) := by
  cases h with
  | onClaim workerId kinds leaseS now _ hclaim =>
    exact .inr ⟨workerId, kinds, leaseS, now, rfl, hclaim, rfl⟩
  | onSettle kind workerId now hguard =>
    rw [hguard.2.1] at hqueued
    cases hqueued
  | onRelease now ids _ hexpired =>
    rw [hexpired.1] at hqueued
    cases hqueued
  | onRequeue jobId now ids _ hdead =>
    rw [hdead.1] at hqueued
    cases hqueued
  | untouched _ htouch => exact .inl ⟨rfl, mt Event.Claims.touches htouch⟩

/-- Every row of a run from an empty database is coherent. -/
theorem coherent_of_run {es : List (Event τ)} {jobs : Jobs τ} (h : Run Step Jobs.empty es jobs)
    {row : JobRow τ} (hrow : jobs.row? j = some row) : Coherent row := by
  refine (run_row h j).invariant (fun row? ↦ ∀ row ∈ row?, Coherent row)
    (fun _ _ _ hrow hstep ↦ hstep.coherent hrow) ?_ row hrow
  simp

/-- A row of a run stays in the table, with the columns its producer fixed. -/
theorem ticket_of_run {es : List (Event τ)} {jobs jobs' : Jobs τ} (h : Run Step jobs es jobs')
    {row : JobRow τ} (hrow : jobs.row? j = some row) :
    ∃ row', jobs'.row? j = some row' ∧ row'.ticket = row.ticket := by
  have hrun := run_row h j
  rw [hrow] at hrun
  refine hrun.relates (fun row? row?' ↦ ∀ row, row? = some row →
    ∃ row', row?' = some row' ∧ row'.ticket = row.ticket) ?_ ?_ ?_ row rfl
  · exact fun _ row hrow ↦ ⟨row, hrow, rfl⟩
  · rintro _ _ _ hfirst hsecond row hrow
    obtain ⟨row', hrow', hticket⟩ := hfirst row hrow
    obtain ⟨row'', hrow'', hticket'⟩ := hsecond row' hrow'
    exact ⟨row'', hrow'', hticket'.trans hticket⟩
  · rintro _ e _ hstep row rfl
    exact hstep.ticket

/-- At every time a leased row can be settled by its worker, or is taken by the reaper, and never
both: whether the deadline lies before the time decides. -/
theorem settled_or_released {jobs : Jobs τ} {row : JobRow τ} (hrow : row ∈ jobs.rows)
    (hcoherent : Coherent row) (hleased : row.status = .leased) (hworker : row.workerId.isSome)
    (now : τ) :
    ((∀ kind, (settle jobs kind row.id row.workerId now).2 = .ok ()) ∧
      ¬ Event.Releases row.id ⟨.releaseExpired now, (perform jobs (.releaseExpired now)).2⟩) ∨
    ((∀ kind, (settle jobs kind row.id row.workerId now).2 ≠ .ok ()) ∧
      Event.Releases row.id ⟨.releaseExpired now, (perform jobs (.releaseExpired now)).2⟩) := by
  obtain ⟨deadline, hdeadline⟩ := Option.isSome_iff_exists.mp (hcoherent.deadline.mpr hleased)
  have hlookup := Jobs.row?_of_mem hrow
  have hreleases :
      Event.Releases row.id ⟨.releaseExpired now, (perform jobs (.releaseExpired now)).2⟩ ↔
        deadline < now := by
    change row.id ∈ (Table.touched (Expired now) (released now) jobs.rows).map JobRow.id ↔ _
    rw [mem_touchedIds jobs (Expired now) (ticket_released now), hlookup]
    simp [Expired, hleased, hdeadline]
  have hsettles : ∀ kind, (settle jobs kind row.id row.workerId now).2 = .ok () ↔
      now ≤ deadline := by
    intro kind
    rw [settle_ok_iff, hlookup]
    simp [HoldsLease, SqlEq, hleased, hdeadline, hworker]
  simp only [hreleases, hsettles, ne_eq, not_lt, not_le]
  rcases le_or_gt now deadline with hle | hlt
  · exact .inl ⟨fun _ ↦ hle, hle⟩
  · exact .inr ⟨fun _ ↦ hlt, hlt⟩

end Machine

end Relay.Queue
