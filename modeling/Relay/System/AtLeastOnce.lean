import Relay.System.Execution
import Relay.Queue.Drain

/-!
# No job is stuck or lost

A job that is neither done nor dead is either queued or leased. Once its lease is over the reaper
takes it, since a leased row always has a deadline, and it is ready at once, since its `not_before`
is not later than the claim that leased it (`notBefore_le_of_run`). So after `release_expired` the
job has used up its attempts and is dead, or the claims that follow deliver it (`no_job_lost`).
-/

set_option autoImplicit false
set_option relaxedAutoImplicit false

namespace Relay.System

open Foundations Store Queue

/-! ### Leased rows are due -/

section Row

variable {τ : Type*}

/-- The time passed to a claim. -/
def claimTime? : Queue.Event τ → Option τ
  | ⟨.claim _ _ _ now, _⟩ => some now
  | _ => none

variable [Add τ] [LinearOrder τ] {j : ℕ} {time : τ}

theorem notBefore_le_of_rowStep {e : Queue.Event τ} {row? row?' : Option (JobRow τ)}
    (h : RowStep j e row? row?') (htime : ∀ now ∈ claimTime? e, now ≤ time)
    (hrow : ∀ row ∈ row?, row.status = .leased → row.notBefore ≤ time) :
    ∀ row ∈ row?', row.status = .leased → row.notBefore ≤ time := by
  cases h with
  | onInsert args =>
    rintro _ ⟨⟩ hleased
    cases hleased
  | onClaim workerId kinds leaseS now _ hclaim =>
    rintro _ ⟨⟩ _
    exact hclaim.1.2.trans (htime now rfl)
  | onSettle kind workerId now hguard =>
    rintro _ ⟨⟩ hleased
    cases kind with
    | ack => cases hleased
    | fail error retryIn =>
      simp only [SettleKind.set] at hleased
      split_ifs at hleased
    | bury error => cases hleased
    | extendLease leaseS =>
      have hsame := hrow _ rfl hguard.2.1
      exact hsame
  | onRelease now ids =>
    rintro _ ⟨⟩ hleased
    simp only [released] at hleased
    split_ifs at hleased
  | onRequeue jobId now ids =>
    rintro _ ⟨⟩ hleased
    cases hleased
  | untouched _ _ => exact hrow

/-- A leased row was due when it was claimed, and nothing has put it off since. -/
theorem notBefore_le_of_run {es : List (Queue.Event τ)} {jobs : Jobs τ}
    (h : Run Queue.Step Jobs.empty es jobs) (htimes : ∀ e ∈ es, ∀ now ∈ claimTime? e, now ≤ time) :
    ∀ row ∈ jobs.row? j, row.status = .leased → row.notBefore ≤ time := by
  refine h.invariant_of_labels _ (fun jobs ↦ ∀ row ∈ jobs.row? j,
    row.status = .leased → row.notBefore ≤ time) ?_ htimes fun row hrow ↦ ?_
  · intro jobs e jobs' htime hrow hstep
    exact notBefore_le_of_rowStep (hstep.rowStep j) htime hrow
  · cases hrow

end Row

/-! ### The job after the reaper -/

/-- What `release_expired` makes of a job whose lease is over or that is due. -/
theorem row?_releaseExpired_live {jobs : Jobs ℚ} {t : ℚ} {row : JobRow ℚ} (hrow : row ∈ jobs.rows)
    (hcoherent : Coherent row)
    (hleased : row.status = .leased → ∀ deadline ∈ row.leaseUntil, deadline < t) :
    (releaseExpired jobs t).1.row? row.id =
      some (if row.status = .leased then released t row else row) := by
  rw [releaseExpired, Jobs.row?_update, Jobs.row?_of_mem hrow, Option.map_some]
  have hexpired : Expired t row ↔ row.status = .leased := by
    constructor
    · intro h
      exact h.1
    · intro hstatus
      obtain ⟨deadline, hdeadline⟩ := Option.isSome_iff_exists.mp (hcoherent.deadline.mpr hstatus)
      exact ⟨hstatus, deadline, hdeadline, hleased hstatus deadline hdeadline⟩
  simp only [hexpired]

/-- A job that is ready is returned by exactly one of as many unfiltered claims as `stats` counts
ready jobs, and the claim after these returns nothing. -/
theorem returned_of_ready {jobs : Jobs ℚ} {t : ℚ} {j : ℕ} {row : JobRow ℚ}
    (hrow : jobs.row? j = some row) (hready : Ready t row) :
    ∀ calls : List (ClaimCall ℚ), (∀ call ∈ calls, call.kinds = none) →
      calls.length = (stats jobs t).ready →
      (claimEach jobs t calls).1.countP (fun job ↦ job.map JobRow.id = some j) = 1 ∧
      ∀ workerId leaseS, (claim (claimEach jobs t calls).2 workerId none leaseS t).2 = none := by
  intro calls hall hlength
  constructor
  · rw [← Jobs.id_of_row? hrow]
    exact countP_claimEach_ready hall hlength (Jobs.mem_of_row? hrow) hready
  · intro workerId leaseS
    rw [(claimEach_ready t calls hall jobs hlength).2 workerId leaseS]

/-- No job is stuck or lost. Take a job that is neither done nor dead and a time no claim was later
than, at which its lease is over or, if it is queued, it is due. After `release_expired` it is dead
of an expired lease, which is the case exactly when it was leased with its attempts used up, or it
is returned by exactly one of as many claims as `stats` counts ready jobs, after which nothing is
left to claim. -/
theorem no_job_lost {timeText : ℚ → String} {es : List Event} {s : State}
    (hrun : Run (Step timeText) (.start .empty) es s) {t : ℚ}
    (htime : ∀ e ∈ es.filterMap Event.queue?, ∀ now ∈ claimTime? e, now ≤ t)
    {row : JobRow ℚ} (hrow : row ∈ s.db.jobs.rows)
    (hlive : row.status ≠ .done ∧ row.status ≠ .dead)
    (hleased : row.status = .leased → ∀ deadline ∈ row.leaseUntil, deadline < t)
    (hqueued : row.status = .queued → row.notBefore ≤ t) :
    ((∃ row' ∈ (releaseExpired s.db.jobs t).1.row? row.id,
        row'.status = .dead ∧ row'.lastError = some "lease expired") ↔
      row.status = .leased ∧ row.maxAttempts ≤ row.attempts) ∧
    ((∃ row' ∈ (releaseExpired s.db.jobs t).1.row? row.id,
        row'.status = .dead ∧ row'.lastError = some "lease expired") ∨
      ∀ calls : List (ClaimCall ℚ), (∀ call ∈ calls, call.kinds = none) →
        calls.length = (stats (releaseExpired s.db.jobs t).1 t).ready →
        (claimEach (releaseExpired s.db.jobs t).1 t calls).1.countP
          (fun job ↦ job.map JobRow.id = some row.id) = 1 ∧
        ∀ workerId leaseS,
          (claim (claimEach (releaseExpired s.db.jobs t).1 t calls).2 workerId none leaseS t).2 =
            none) := by
  have hcoherent : Coherent row := coherent_of_run (run_queue hrun) (Jobs.row?_of_mem hrow)
  have hdue := notBefore_le_of_run (j := row.id) (run_queue hrun) htime row (Jobs.row?_of_mem hrow)
  have hafter := row?_releaseExpired_live hrow hcoherent hleased
  have hdead_iff : ∀ row', (releaseExpired s.db.jobs t).1.row? row.id = some row' →
      ((∃ row' ∈ (releaseExpired s.db.jobs t).1.row? row.id,
        row'.status = .dead ∧ row'.lastError = some "lease expired") ↔
      row'.status = .dead ∧ row'.lastError = some "lease expired") := by
    intro row' hrow'
    rw [hrow']
    simp
  rw [hdead_iff _ hafter]
  have hstatus : row.status = .queued ∨ row.status = .leased := by
    cases h : row.status <;> simp_all
  rcases hstatus with hstatus | hstatus
  · rw [if_neg (by simp [hstatus])] at hafter ⊢
    refine ⟨by simp [hstatus], .inr (returned_of_ready hafter ⟨hstatus, hqueued hstatus⟩)⟩
  · rw [if_pos hstatus] at hafter ⊢
    by_cases hspent : Exhausted row
    · have hbudget : row.maxAttempts ≤ row.attempts := hspent
      exact ⟨by simp [released, hspent, hstatus, hbudget], .inl (by simp [released, hspent])⟩
    · have hbudget : ¬ row.maxAttempts ≤ row.attempts := hspent
      refine ⟨by simp [released, hspent, hbudget], .inr (returned_of_ready hafter ⟨?_, ?_⟩)⟩
      · simp [released, hspent]
      · exact hdue hstatus

/-- A worker that stops after its claim. -/
def stoppedWorker : List Action :=
  [.enqueue 0 ⟨"email", "null", 0, 5, 0, none, 0⟩, .claim 1 ⟨"w1", 60, 1, 300, ["email"]⟩ 0]

theorem no_job_lost_stoppedWorker :
    (claimEach
      (releaseExpired (runActions wholeSeconds (.start .empty) stoppedWorker).2.db.jobs 61).1 61
      [⟨some "w2", none, 60⟩]).1.countP (fun job ↦ job.map JobRow.id = some 1) = 1 := by
  have hrow : (⟨1, "email", "\x7b\x7d", .leased, 0, 1, 5, 0, some 60, some "w1", none, none, 0, 0⟩ :
      JobRow ℚ) ∈ (runActions wholeSeconds (.start .empty) stoppedWorker).2.db.jobs.rows := by
    decide +kernel
  have hlost := no_job_lost (t := 61) (run_runActions wholeSeconds (.start .empty) stoppedWorker)
    (by decide +kernel) hrow (by decide) (by decide +kernel) (by decide)
  exact (hlost.2.resolve_left (by decide +kernel) _ (by decide) (by decide +kernel)).1

end Relay.System
