import Relay.Queue.RowInvariants

/-!
# The delivery budget

The attempts of a row count the successful claims of its job since it was enqueued, or since the
last `requeue_dead` that moved it (`attempts_eq_deliveriesSince`). `delivery_budget` combines this
with the budget every row keeps: at most `max 1 max_attempts` deliveries between two revivals,
the retry-or-dead decision at exactly that number, and the bound on all deliveries of a job.
-/

set_option autoImplicit false
set_option relaxedAutoImplicit false

namespace Relay.Queue

open Foundations Store

variable {τ : Type*} {j : ℕ}

/-- The successful claims of job `j` since it was enqueued or last requeued from `dead`. -/
def deliveriesSince (j : ℕ) (es : List (Event τ)) : ℕ :=
  es.foldl (fun n e ↦ if e.Claims j then n + 1 else if e.Requeues j then 0 else n) 0

/-- All successful claims of job `j`. -/
def deliveries (j : ℕ) (es : List (Event τ)) : ℕ := es.countP fun e ↦ e.Claims j

/-- The `requeue_dead` calls that moved job `j`. -/
def revivals (j : ℕ) (es : List (Event τ)) : ℕ := es.countP fun e ↦ e.Requeues j

theorem deliveriesSince_append (es : List (Event τ)) (e : Event τ) :
    deliveriesSince j (es ++ [e]) =
      if e.Claims j then deliveriesSince j es + 1
      else if e.Requeues j then 0 else deliveriesSince j es := by
  simp [deliveriesSince]

theorem deliveries_append (es : List (Event τ)) (e : Event τ) :
    deliveries j (es ++ [e]) = deliveries j es + if e.Claims j then 1 else 0 := by
  simp [deliveries, List.countP_append, List.countP_singleton]

theorem revivals_append (es : List (Event τ)) (e : Event τ) :
    revivals j (es ++ [e]) = revivals j es + if e.Requeues j then 1 else 0 := by
  simp [revivals, List.countP_append, List.countP_singleton]

/-- The attempts of a row; none before the job exists. -/
def attempts? (row? : Option (JobRow τ)) : ℕ := row?.elim 0 JobRow.attempts

section Machine

variable [Add τ] [LinearOrder τ] {e : Event τ}

/-- A claim counts one attempt, `requeue_dead` starts anew, and no other step counts. -/
theorem RowStep.attempts {row? row?' : Option (JobRow τ)} (h : RowStep j e row? row?') :
    attempts? row?' = if e.Claims j then attempts? row? + 1
      else if e.Requeues j then 0 else attempts? row? := by
  cases h with
  | onInsert args => rfl
  | onClaim workerId kinds leaseS now hid =>
    simp [Event.Claims, attempts?, claimed, hid]
  | onSettle kind workerId now =>
    cases kind <;> rfl
  | onRelease now ids => rfl
  | onRequeue jobId now ids hmem =>
    simp [Event.Claims, Event.Requeues, attempts?, requeued, hmem]
  | untouched _ htouch =>
    rw [if_neg (mt Event.Claims.touches htouch), if_neg (mt Event.Requeues.touches htouch)]

theorem attempts_eq_deliveriesSince {es : List (Event τ)} {jobs : Jobs τ}
    (h : Run Step Jobs.empty es jobs) : attempts? (jobs.row? j) = deliveriesSince j es := by
  refine h.history (motive := fun es jobs ↦ attempts? (jobs.row? j) = deliveriesSince j es) rfl ?_
  intro es jobs e jobs' _ ih hstep
  rw [(hstep.rowStep j).attempts, deliveriesSince_append, ih]

/-- A delivery that a `fail` or the reaper ends leaves the job dead when its attempts are used up,
and queued otherwise. -/
theorem RowStep.status_of_ended {row row' : JobRow τ} (h : RowStep j e (some row) (some row'))
    (hend : e.Fails j ∨ e.Releases j) :
    row.status = .leased ∧ row'.status = if Exhausted row then .dead else .queued := by
  cases h with
  | onClaim workerId kinds leaseS now hid => exact (hend.elim id id).elim
  | onSettle kind workerId now hguard =>
    cases kind with
    | fail error retryIn => exact ⟨hguard.2.1, rfl⟩
    | _ => exact (hend.elim id id).elim
  | onRelease now ids _ hexpired => exact ⟨hexpired.1, rfl⟩
  | onRequeue jobId now ids => exact (hend.elim id id).elim
  | untouched _ htouch => exact absurd (hend.elim Event.Fails.touches Event.Releases.touches) htouch

theorem RowStep.not_claims_of_none {row?' : Option (JobRow τ)} (h : RowStep j e none row?') :
    ¬ e.Claims j := by
  cases h with
  | onInsert args => exact id
  | untouched _ htouch => exact mt Event.Claims.touches htouch

theorem deliveries_eq_zero_of_run {es : List (Event τ)} {jobs : Jobs τ}
    (h : Run Step Jobs.empty es jobs) : jobs.row? j = none → deliveries j es = 0 := by
  refine h.history (motive := fun es jobs ↦ jobs.row? j = none → deliveries j es = 0)
    (fun _ ↦ rfl) ?_
  intro es jobs e jobs' _ ih hstep hnone'
  have hrowStep := hstep.rowStep j
  cases hrow : jobs.row? j with
  | none =>
    rw [hrow] at hrowStep
    rw [deliveries_append, ih hrow, if_neg hrowStep.not_claims_of_none]
  | some row =>
    rw [hrow, hnone'] at hrowStep
    obtain ⟨_, hsome, _⟩ := hrowStep.ticket
    cases hsome

/-- All deliveries of a job: the full budget for each revival, and the attempts since the last. -/
theorem deliveries_le_of_run {es : List (Event τ)} {jobs : Jobs τ}
    (h : Run Step Jobs.empty es jobs) : ∀ row, jobs.row? j = some row →
      (deliveries j es : ℤ) ≤ max 1 row.maxAttempts * revivals j es + row.attempts := by
  refine h.history (motive := fun es jobs ↦ ∀ row, jobs.row? j = some row →
      (deliveries j es : ℤ) ≤ max 1 row.maxAttempts * revivals j es + row.attempts) ?_ ?_
  · intro _ hrow
    cases hrow
  · intro es jobs e jobs' hrun ih hstep row' hrow'
    have hrowStep := hstep.rowStep j
    have hattempts := hrowStep.attempts
    rw [deliveries_append, revivals_append]
    rw [hrow'] at hattempts hrowStep
    cases hrow : jobs.row? j with
    | none =>
      rw [hrow] at hrowStep
      have hbudget : 0 ≤ max 1 row'.maxAttempts := zero_le_one.trans (le_max_left 1 _)
      rw [deliveries_eq_zero_of_run hrun hrow, if_neg hrowStep.not_claims_of_none]
      push_cast
      positivity
    | some row =>
      rw [hrow] at hattempts hrowStep
      obtain ⟨_, ⟨⟩, hticket⟩ := hrowStep.ticket
      have hle := ih row hrow
      have hbudget := (coherent_of_run hrun hrow).budget
      rw [show row'.maxAttempts = row.maxAttempts from congrArg Ticket.maxAttempts hticket]
      change row'.attempts = if _ then row.attempts + 1 else if _ then 0 else row.attempts
        at hattempts
      by_cases hclaims : e.Claims j
      · have hnot : ¬ e.Requeues j := by
          unfold Event.Claims at hclaims
          split at hclaims
          · exact id
          · exact hclaims.elim
        simp only [hclaims, hnot, if_true, if_false] at hattempts ⊢
        push_cast [hattempts]
        linarith
      · by_cases hrequeues : e.Requeues j
        · -- the budget of the attempts that end here is what one more revival pays for
          simp only [hclaims, hrequeues, if_true, if_false] at hattempts ⊢
          push_cast [hattempts]
          linarith
        · simp only [hclaims, hrequeues, if_false] at hattempts ⊢
          push_cast [hattempts]
          linarith

/-- The delivery budget. The attempts of a row are its deliveries since it was enqueued or last
requeued, they never exceed `max 1 max_attempts`, and a queued job that was delivered has some
left. A delivery that a `fail` or the reaper ends leaves the job dead when it was number
`max 1 max_attempts`, and queued when it was an earlier one. All its deliveries are at most
`max 1 max_attempts` for the enqueue and for each revival. -/
theorem delivery_budget {es : List (Event τ)} {jobs : Jobs τ} (hrun : Run Step Jobs.empty es jobs)
    {row : JobRow τ} (hrow : jobs.row? j = some row) :
    row.attempts = deliveriesSince j es ∧
      (row.attempts : ℤ) ≤ max 1 row.maxAttempts ∧
      (row.status = .queued → 0 < row.attempts → (row.attempts : ℤ) < row.maxAttempts) ∧
      (∀ e jobs' row', Step jobs e jobs' → e.Fails j ∨ e.Releases j → jobs'.row? j = some row' →
        row'.status = if (deliveriesSince j es : ℤ) < max 1 row.maxAttempts then .queued
          else .dead) ∧
      (deliveries j es : ℤ) ≤ max 1 row.maxAttempts * (1 + revivals j es) := by
  have hcoherent := coherent_of_run hrun hrow
  have hattempts : row.attempts = deliveriesSince j es := by
    rw [← attempts_eq_deliveriesSince hrun, hrow]
    rfl
  refine ⟨hattempts, hcoherent.budget, hcoherent.retryable, ?_, ?_⟩
  · intro e jobs' row' hstep hend hrow'
    have hrowStep := hstep.rowStep j
    rw [hrow, hrow'] at hrowStep
    obtain ⟨hleased, hstatus⟩ := hrowStep.status_of_ended hend
    have hone := hcoherent.delivered (by simp [hleased])
    have hbudget := hcoherent.budget
    rw [hstatus, ← hattempts]
    by_cases hspent : Exhausted row
    · rw [if_pos hspent, if_neg]
      unfold Exhausted at hspent
      omega
    · rw [if_neg hspent, if_pos]
      unfold Exhausted at hspent
      omega
  · have hle := deliveries_le_of_run hrun row hrow
    have hbudget := hcoherent.budget
    linarith

end Machine

/-- A job with a budget of two that fails once, is reaped after its second delivery, and is
requeued and delivered a third time. -/
def revivedJob : List (Statement ℕ) :=
  [.insert (EnqueueArgs.mk "email" "null" 0 2 0 none 0),
    .claim (some "w1") none 60 0,
    .settle (.fail "boom" 5) 1 (some "w1") 1,
    .claim (some "w1") none 60 6,
    .releaseExpired 67,
    .requeueDead none 70,
    .claim (some "w2") none 60 70]

theorem delivery_budget_revivedJob :
    1 = deliveriesSince 1 (exec Jobs.empty revivedJob).1 ∧
      (deliveries 1 (exec Jobs.empty revivedJob).1 : ℤ) ≤
        max 1 2 * (1 + revivals 1 (exec Jobs.empty revivedJob).1) :=
  have h := delivery_budget (j := 1) (run_exec Jobs.empty revivedJob) rfl
  ⟨h.1, h.2.2.2.2⟩

end Relay.Queue
