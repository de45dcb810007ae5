import Relay.Workers.Operations
import Relay.Queue.Drain

/-!
# What `run_once` does with its job

A `run_once` that finds a job claims it, runs the handler and settles the job as the outcome says,
unless an `except` clause raises before its statement: the retry delay overflows, as `2.0 ** n` does
from `n = 1024` on, or the exception of the handler has no `repr`. Then the job stays leased. So
`run_once` settles its job exactly when an exception of the handler has a `repr` and, if it is not a
`PermanentError`, the job has had at most 1023 attempts before (`settlesJob_iff`). A job reaches
1024 of them when its budget allows so many (`overflowing_job`).
-/

set_option autoImplicit false
set_option relaxedAutoImplicit false

namespace Relay.Workers

open Foundations Store Queue

/-- The first ready job of a kind the worker has a handler for, in the order of the queue. -/
def NextJob (worker : Worker) (jobs : Jobs ℚ) (now : ℚ) (row : JobRow ℚ) : Prop :=
  row ∈ jobs.rows ∧ Claimable (some worker.handlers) now row ∧
    ∀ other ∈ jobs.rows, Claimable (some worker.handlers) now other → ClaimOrder row other

/-- The job as a `run_once` gives it to its handler. -/
abbrev leasedTo (worker : Worker) (now : ℚ) (row : JobRow ℚ) : JobRow ℚ :=
  claimed (some worker.workerId) worker.leaseS now row

/-- What is to become of a job: done, dead, or what its attempts are good for. -/
def SettledAs (worker : Worker) (now : ℚ) (row row' : JobRow ℚ) : Outcome → Prop
  | .returned => row'.status = .done
  | .permanentError _ => row'.status = .dead
  | .exception _ =>
    if row.maxAttempts ≤ row.attempts + 1 then row'.status = .dead
    else row'.status = .queued ∧
      row'.notBefore = now + min worker.backoffCap (worker.backoffBase * 2 ^ row.attempts)

/-- A `run_once` settles its job: it returns `True`, and changes the row of the job it claims, as
the outcome of the handler says, and no other. -/
def SettlesJob (worker : Worker) (handler : JobRow ℚ → Outcome) (jobs : Jobs ℚ) (now : ℚ) : Prop :=
  ∃ row, NextJob worker jobs now row ∧
    (claimJob worker jobs now).2 = some (leasedTo worker now row) ∧
    (runOnce worker handler jobs now).2 = .ok true ∧
    (∀ id, id ≠ row.id → (runOnce worker handler jobs now).1.row? id = jobs.row? id) ∧
    ∃ row', (runOnce worker handler jobs now).1.row? row.id = some row' ∧ row' ≠ row ∧
      row'.status ≠ .leased ∧ SettledAs worker now row row' (handler (leasedTo worker now row))

/-- A handler that raises no `PermanentError` was not given a job with more than 1023 earlier
attempts. -/
def PowerFits (worker : Worker) (handler : JobRow ℚ → Outcome) (jobs : Jobs ℚ) (now : ℚ) : Prop :=
  ∀ row error, NextJob worker jobs now row → handler (leasedTo worker now row) = .exception error →
    row.attempts ≤ 1023

/-- The exception of a handler that raises has a `repr`. -/
def ReprFits (worker : Worker) (handler : JobRow ℚ → Outcome) (jobs : Jobs ℚ) (now : ℚ) : Prop :=
  ∀ row, NextJob worker jobs now row → (handler (leasedTo worker now row)).reprError? = none

variable {worker : Worker} {handler : JobRow ℚ → Outcome} {jobs : Jobs ℚ} {now : ℚ} {row : JobRow ℚ}

/-! ### The claim and the delay -/

theorem NextJob.unique {row' : JobRow ℚ} (h : NextJob worker jobs now row)
    (h' : NextJob worker jobs now row') : row' = row := by
  have hle : ClaimOrder row row' := h.2.2 row' h'.1 h'.2.1
  have hge : ClaimOrder row' row := h'.2.2 row h.1 h.2.1
  refine Jobs.eq_of_id h'.1 h.1 ?_
  unfold ClaimOrder at hle hge
  omega

/-- When a job is ready, `run_once` claims the next one. -/
theorem claimJob_eq (hready : ∃ row ∈ jobs.rows, Claimable (some worker.handlers) now row) :
    ∃ row, NextJob worker jobs now row ∧ claimJob worker jobs now =
      (jobs.update (fun other ↦ other.id = row.id) (leasedTo worker now) (ticket_claimed _ _ now),
        some (leasedTo worker now row)) := by
  obtain ⟨row, hrow, hclaimable, hbefore, hclaim⟩ :=
    claim_eq_first (some worker.workerId) worker.leaseS hready
  refine ⟨row, ⟨hrow, hclaimable, fun other hother hready ↦ ?_⟩, hclaim⟩
  rcases hbefore other hother hready with rfl | hbefore
  · exact .inr ⟨rfl, le_rfl⟩
  · exact hbefore.imp_right fun hsame ↦ ⟨hsame.1, hsame.2.le⟩

theorem backoff_ok {n : ℕ} (hn : n ≤ 1023) (base cap : ℚ) :
    backoff (n + 1) base cap = .ok (min cap (base * 2 ^ n)) := by
  rw [backoff, Nat.add_sub_cancel, powTwo, if_pos hn]
  rfl

theorem backoff_overflow {n : ℕ} (hn : ¬ n ≤ 1023) (base cap : ℚ) :
    backoff (n + 1) base cap = .error .overflowError := by
  rw [backoff, Nat.add_sub_cancel, powTwo, if_neg hn]
  rfl

theorem settleKind_overflow (worker : Worker) (now : ℚ) {row : JobRow ℚ}
    (error : Except PyError String) (hoverflow : ¬ row.attempts ≤ 1023) :
    settleKind worker (leasedTo worker now row) (.exception error) = .error .overflowError := by
  have hattempts : (leasedTo worker now row).attempts = row.attempts + 1 := rfl
  rw [settleKind, hattempts, backoff_overflow hoverflow]
  rfl

/-- A settle statement is reached when the power fits and the exception has a `repr`. -/
theorem exists_settleKind_iff {outcome : Outcome} :
    (∃ kind, settleKind worker (leasedTo worker now row) outcome = .ok kind) ↔
      (∀ error, outcome = .exception error → row.attempts ≤ 1023) ∧
        outcome.reprError? = none := by
  constructor
  · rintro ⟨kind, hkind⟩
    rcases settleKind_ok hkind with ⟨rfl, -⟩ | ⟨text, rfl, -⟩ | ⟨text, delay, rfl, hdelay, -⟩
    · exact ⟨nofun, rfl⟩
    · exact ⟨nofun, rfl⟩
    · refine ⟨fun _ _ ↦ ?_, rfl⟩
      by_contra hoverflow
      have hattempts : (leasedTo worker now row).attempts = row.attempts + 1 := rfl
      rw [hattempts, backoff_overflow hoverflow] at hdelay
      cases hdelay
  · rintro ⟨hfits, hrepr⟩
    cases hkind : settleKind worker (leasedTo worker now row) outcome with
    | ok kind => exact ⟨kind, rfl⟩
    | error error =>
      rcases settleKind_error hkind with ⟨rfl, hattempts⟩ | hraises
      · exfalso
        have hmore : 1023 < row.attempts := Nat.lt_of_succ_lt_succ hattempts
        cases outcome with
        | exception error => exact absurd (hfits error rfl) (by omega)
        | returned => cases hkind
        | permanentError error =>
          cases error with
          | error error => cases hrepr
          | ok text => cases hkind
      · rw [hrepr] at hraises
        cases hraises

/-! ### The settle statement -/

/-- Without a settle statement the job stays leased, and what was raised decides the answer. -/
theorem runOnce_raises (hclaim : claimJob worker jobs now =
      (jobs.update (fun other ↦ other.id = row.id) (leasedTo worker now) (ticket_claimed _ _ now),
        some (leasedTo worker now row)))
    {error : PyError}
    (hkind : settleKind worker (leasedTo worker now row) (handler (leasedTo worker now row)) =
      .error error) :
    runOnce worker handler jobs now =
      (jobs.update (fun other ↦ other.id = row.id) (leasedTo worker now) (ticket_claimed _ _ now),
        discardStale (.error error)) := by
  rw [runOnce, hclaim]
  simp only [hkind]

/-- The settle statement finds the row that was claimed and writes it. -/
theorem runOnce_settles (hrow : row ∈ jobs.rows) (hlease : 0 ≤ worker.leaseS)
    (hclaim : claimJob worker jobs now =
      (jobs.update (fun other ↦ other.id = row.id) (leasedTo worker now) (ticket_claimed _ _ now),
        some (leasedTo worker now row)))
    {kind : SettleKind ℚ}
    (hkind : settleKind worker (leasedTo worker now row) (handler (leasedTo worker now row)) =
      .ok kind) :
    (runOnce worker handler jobs now).2 = .ok true ∧
      (runOnce worker handler jobs now).1.row? row.id =
        some (kind.set now (leasedTo worker now row)) ∧
      ∀ id, id ≠ row.id → (runOnce worker handler jobs now).1.row? id = jobs.row? id := by
  have hguard : HoldsLease row.id (some worker.workerId) now (leasedTo worker now row) :=
    ⟨rfl, rfl, ⟨rfl, rfl⟩, now + worker.leaseS, rfl, le_add_of_nonneg_right hlease⟩
  rw [runOnce, hclaim]
  simp only [hkind]
  refine ⟨discardStale_settle .., ?_, fun id hid ↦ ?_⟩
  · rw [row?_settle, row?_claim hrow, if_pos rfl]
    exact congrArg some (if_pos hguard)
  · rw [row?_settle, row?_claim hrow, if_neg hid]
    cases hother : jobs.row? id with
    | none => rfl
    | some other =>
      have hne : other.id ≠ row.id := Jobs.id_of_row? hother ▸ hid
      rw [Option.map_some, if_neg fun hguard ↦ hne hguard.1]

theorem attempts_set (kind : SettleKind ℚ) (now : ℚ) (row : JobRow ℚ) :
    (kind.set now row).attempts = row.attempts := by
  cases kind <;> rfl

/-- The settle statement that `run_once` picks writes what the outcome asks for. -/
theorem settledAs_of_settleKind {outcome : Outcome} {kind : SettleKind ℚ}
    (hkind : settleKind worker (leasedTo worker now row) outcome = .ok kind) :
    (kind.set now (leasedTo worker now row)).status ≠ .leased ∧
      SettledAs worker now row (kind.set now (leasedTo worker now row)) outcome := by
  rcases settleKind_ok hkind with ⟨rfl, rfl⟩ | ⟨text, rfl, rfl⟩ | ⟨text, delay, rfl, hdelay, rfl⟩
  · exact ⟨nofun, rfl⟩
  · exact ⟨nofun, rfl⟩
  · have hfits : row.attempts ≤ 1023 := (exists_settleKind_iff.mp ⟨_, hkind⟩).1 _ rfl
    have hattempts : (leasedTo worker now row).attempts = row.attempts + 1 := rfl
    rw [hattempts, backoff_ok hfits] at hdelay
    cases hdelay
    have hspent : Exhausted (leasedTo worker now row) ↔ row.maxAttempts ≤ row.attempts + 1 := by
      simp [Exhausted, claimed]
    by_cases h : row.maxAttempts ≤ row.attempts + 1
    · simp [SettledAs, SettleKind.set, hspent, h]
    · simp [SettledAs, SettleKind.set, hspent, h]

/-- A `run_once` that finds a ready job settles it exactly when the `except` clauses raise nothing:
the power in the retry delay fits, and the exception of the handler has a `repr`. -/
theorem settlesJob_iff (hready : ∃ row ∈ jobs.rows, Claimable (some worker.handlers) now row)
    (hlease : 0 ≤ worker.leaseS) :
    SettlesJob worker handler jobs now ↔
      PowerFits worker handler jobs now ∧ ReprFits worker handler jobs now := by
  obtain ⟨row, hnext, hclaim⟩ := claimJob_eq hready
  constructor
  · rintro ⟨row', hnext', -, -, -, final, hfinal, -, hstatus, -⟩
    obtain rfl := hnext.unique hnext'
    have hkind : ∃ kind, settleKind worker (leasedTo worker now row')
        (handler (leasedTo worker now row')) = .ok kind := by
      cases hkind : settleKind worker (leasedTo worker now row')
        (handler (leasedTo worker now row')) with
      | ok kind => exact ⟨kind, rfl⟩
      | error error =>
        -- the row is as the claim left it
        have hclaimed : (jobs.update (fun other ↦ other.id = row'.id) (leasedTo worker now)
            (ticket_claimed _ _ now)).row? row'.id = some (leasedTo worker now row') :=
          (row?_claim hnext.1 row'.id).trans (if_pos rfl)
        rw [runOnce_raises hclaim hkind, hclaimed] at hfinal
        cases hfinal
        exact absurd rfl hstatus
    obtain ⟨hfits, hrepr⟩ := exists_settleKind_iff.mp hkind
    refine ⟨fun other error hother hraised ↦ ?_, fun other hother ↦ ?_⟩
    · obtain rfl := hnext.unique hother
      exact hfits error hraised
    · obtain rfl := hnext.unique hother
      exact hrepr
  · rintro ⟨hfits, hrepr⟩
    obtain ⟨kind, hkind⟩ := exists_settleKind_iff.mpr
      ⟨fun error hraised ↦ hfits row error hnext hraised, hrepr row hnext⟩
    obtain ⟨hreturn, hrow, hothers⟩ := runOnce_settles hnext.1 hlease hclaim hkind
    obtain ⟨hstatus, hsettled⟩ := settledAs_of_settleKind hkind
    refine ⟨row, hnext, by rw [hclaim], hreturn, hothers, _, hrow, fun hsame ↦ ?_, hstatus,
      hsettled⟩
    have hattempts := congrArg JobRow.attempts hsame
    rw [attempts_set] at hattempts
    exact absurd hattempts (Nat.succ_ne_self _)

/-- A worker for one kind, with the settings `Worker` has by default. -/
def emailWorker : Worker where
  workerId := "w1"
  handlers := ["email"]

/-- A job that was never delivered. -/
def firstFailure : Jobs ℚ := (enqueue Jobs.empty ⟨"email", "null", 0, 5, 0, none, 0⟩).1

theorem settlesJob_firstFailure :
    SettlesJob emailWorker (fun _ ↦ .exception (.ok "ValueError()")) firstFailure 0 := by
  have hready : ∃ row ∈ firstFailure.rows, Claimable (some emailWorker.handlers) 0 row := by
    decide +kernel
  have hattempts : ∀ row ∈ firstFailure.rows, row.attempts ≤ 1023 := by decide +kernel
  exact (settlesJob_iff hready (by decide +kernel)).mpr
    ⟨fun row _ hnext _ ↦ hattempts row hnext.1, fun _ _ ↦ rfl⟩

/-! ### A job with 1024 attempts -/

theorem rows_claim {jobs : Jobs ℚ} {row : JobRow ℚ} (hrows : jobs.rows = [row])
    (workerId : Option String) {kinds : Option (List String)} (leaseS : ℚ) {now : ℚ}
    (hclaimable : Claimable kinds now row) :
    (claim jobs workerId kinds leaseS now).1.rows = [claimed workerId leaseS now row] := by
  have hready : ∃ other ∈ jobs.rows, Claimable kinds now other := ⟨row, by simp [hrows], hclaimable⟩
  obtain ⟨first, hfirst, -, -, hclaim⟩ := claim_eq_first workerId leaseS hready
  rw [hrows, List.mem_singleton] at hfirst
  rw [hclaim, hfirst]
  simp [Jobs.update, Table.updateWhere, hrows]

theorem rows_settle {jobs : Jobs ℚ} {row : JobRow ℚ} (hrows : jobs.rows = [row])
    (kind : SettleKind ℚ) {jobId : ℕ} {workerId : Option String} {now : ℚ}
    (hguard : HoldsLease jobId workerId now row) :
    (settle jobs kind jobId workerId now).1.rows = [kind.set now row] := by
  simp [settle, Jobs.update, Table.updateWhere, hrows, hguard]

/-- Rounds of a claim and a `fail` bring a job with a budget of 2000 to any lower number of
attempts. -/
theorem failed_rounds (n : ℕ) (hn : n < 2000) : ∃ es, ∃ jobs : Jobs ℚ, ∃ row,
    Run Queue.Step Jobs.empty es jobs ∧ jobs.rows = [row] ∧ row.kind = "email" ∧
    row.maxAttempts = 2000 ∧ row.attempts = n ∧ row.status = .queued ∧ row.notBefore = 0 := by
  induction n with
  | zero =>
    refine ⟨[⟨.insert ⟨"email", "null", 0, 2000, 0, none, 0⟩, .inserted (some 1)⟩], _, _,
      .single rfl, rfl, rfl, rfl, rfl, rfl, ?_⟩
    decide +kernel
  | succ n ih =>
    obtain ⟨es, jobs, row, hrun, hrows, hkind, hbudget, hattempts, hqueued, hdue⟩ := ih (by omega)
    have hready : Claimable none 0 row := ⟨⟨hqueued, hdue.le⟩, nofun⟩
    have hguard : HoldsLease row.id (some "w1") 0 (claimed (some "w1") 60 0 row) :=
      ⟨rfl, rfl, ⟨rfl, rfl⟩, _, rfl, by decide +kernel⟩
    have hleft : ¬ Exhausted (claimed (some "w1") 60 0 row) := by
      simp [Exhausted, claimed, hbudget, hattempts]
      omega
    have hfailed := rows_settle (rows_claim hrows (some "w1") 60 hready) (.fail "boom" 0) hguard
    have hround := run_exec jobs
      [.claim (some "w1") none 60 0, .settle (.fail "boom" 0) row.id (some "w1") 0]
    refine ⟨_, _, _, hrun.append hround, hfailed, hkind, hbudget, ?_, ?_, ?_⟩
    · exact congrArg (· + 1) hattempts
    · simp [SettleKind.set, hleft]
    · simp [SettleKind.set]

/-- A job that has failed 1024 times and has attempts left: a handler that raises makes `run_once`
raise an `OverflowError`, and the job stays leased. -/
theorem overflowing_job : ∃ es, ∃ jobs : Jobs ℚ, Run Queue.Step Jobs.empty es jobs ∧
    (∃ row ∈ jobs.rows, Claimable (some emailWorker.handlers) 0 row) ∧
    (runOnce emailWorker (fun _ ↦ .exception (.ok "ValueError()")) jobs 0).2 =
      .error .overflowError ∧
    (∃ row ∈ (runOnce emailWorker (fun _ ↦ .exception (.ok "ValueError()")) jobs 0).1.rows,
      row.status = .leased) ∧
    ¬ SettlesJob emailWorker (fun _ ↦ .exception (.ok "ValueError()")) jobs 0 := by
  obtain ⟨es, jobs, row, hrun, hrows, hkind, -, hattempts, hqueued, hdue⟩ :=
    failed_rounds 1024 (by decide)
  have hready : ∃ row ∈ jobs.rows, Claimable (some emailWorker.handlers) 0 row := by
    refine ⟨row, by simp [hrows], ⟨hqueued, hdue.le⟩, ?_⟩
    rintro _ ⟨⟩
    simp [hkind, emailWorker]
  obtain ⟨next, hnext, hclaim⟩ := claimJob_eq hready
  have hsame : next = row := by simpa [hrows] using hnext.1
  subst hsame
  have hoverflow := settleKind_overflow emailWorker 0 (.ok "ValueError()")
    (show ¬ next.attempts ≤ 1023 by rw [hattempts]; decide)
  have hraises : runOnce emailWorker (fun _ ↦ .exception (.ok "ValueError()")) jobs 0 =
      (_, discardStale (.error .overflowError)) := runOnce_raises hclaim hoverflow
  refine ⟨es, jobs, hrun, hready, by rw [hraises]; rfl, ?_, ?_⟩
  · rw [hraises]
    exact ⟨_, Jobs.mem_of_row? ((row?_claim hnext.1 next.id).trans (if_pos rfl)), rfl⟩
  · rintro ⟨_, _, _, hreturn, _⟩
    rw [hraises] at hreturn
    cases hreturn

end Relay.Workers
