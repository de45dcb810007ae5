import Relay.Queue.RowMachine
import Mathlib.Data.Rat.Floor

/-!
# The worker

`Worker.run_once` in `worker.py`, cut where other processes can come between: the claim, the run of
the handler, and the settle statement that its outcome selects (`settleKind`). A handler is seen
through its outcome: it returns, raises `PermanentError`, or raises another `Exception`, a
`StaleLeaseError` of its own heartbeats included. `run_once` here is the method with a handler that
does not touch the database.

The settle statement of a handler that raised stores `repr(exc)`, which is evaluated in the `except`
clause. What it raises there, and what `sqlite3` raises for a text that is not valid Unicode, is
caught by the outer `try` only, so only a `StaleLeaseError`; the job stays leased.
-/

set_option autoImplicit false
set_option relaxedAutoImplicit false

namespace Relay.Workers

open Foundations Store Queue

/-- How a handler ends; `error` is the `repr` of the exception, or what is raised in its place. -/
inductive Outcome
  | returned
  | permanentError (error : Except PyError String)
  | exception (error : Except PyError String)
deriving DecidableEq, Repr

/-- A worker: its id, which is never empty, its settings and the kinds it has handlers for. -/
structure Worker where
  workerId : String
  leaseS : ℚ := 60
  backoffBase : ℚ := 1
  backoffCap : ℚ := 300
  handlers : List String
deriving DecidableEq, Repr

/-- `2.0 ** n`: exact up to `n = 1023`, an `OverflowError` beyond. -/
def powTwo (n : ℕ) : Except PyError ℚ := if n ≤ 1023 then .ok (2 ^ n) else .error .overflowError

/-- `backoff` with its default factor of 2, which is the one `run_once` uses. -/
def backoff (attempt : ℕ) (base cap : ℚ) : Except PyError ℚ :=
  (powTwo (attempt - 1)).map fun power ↦ min cap (base * power)

/-- The settle statement `run_once` picks for an outcome, or what the `except` clause raises. The
delay of a `fail` is computed first. -/
def settleKind (worker : Worker) (job : JobRow ℚ) : Outcome → Except PyError (SettleKind ℚ)
  | .returned => .ok .ack
  | .permanentError error => error.map .bury
  | .exception error =>
    (backoff job.attempts worker.backoffBase worker.backoffCap).bind fun delay ↦
      error.map fun text ↦ .fail text delay

/-- `except StaleLeaseError: pass`, and the `return True` after it. -/
def discardStale : Except PyError Unit → Except PyError Bool
  | .error (.staleLeaseError _ _) => .ok true
  | .error error => .error error
  | .ok _ => .ok true

/-- The claim of `run_once`: only kinds with a registered handler. -/
def claimJob (worker : Worker) (jobs : Jobs ℚ) (now : ℚ) : Jobs ℚ × Option (JobRow ℚ) :=
  claim jobs (some worker.workerId) (some worker.handlers) worker.leaseS now

/-- `Worker.run_once` with a handler that does not touch the database. -/
def runOnce (worker : Worker) (handler : JobRow ℚ → Outcome) (jobs : Jobs ℚ) (now : ℚ) :
    Jobs ℚ × Except PyError Bool :=
  match claimJob worker jobs now with
  | (jobs, none) => (jobs, .ok false)
  | (jobs, some job) =>
    match settleKind worker job (handler job) with
    | .error error => (jobs, discardStale (.error error))
    | .ok kind =>
      let (jobs, result) := settle jobs kind job.id (some worker.workerId) now
      (jobs, discardStale result)

theorem discardStale_error (error : PyError) : discardStale (.error error) = .ok true ∨
    discardStale (.error error) = .error error ∧
      ∀ jobId workerId, error ≠ .staleLeaseError jobId workerId := by
  cases error with
  | staleLeaseError => exact .inl rfl
  | _ => exact .inr ⟨rfl, nofun⟩

@[simp] theorem discardStale_settle {τ : Type*} [Add τ] [LinearOrder τ] (jobs : Jobs τ)
    (kind : SettleKind τ) (jobId : ℕ) (workerId : Option String) (now : τ) :
    discardStale (settle jobs kind jobId workerId now).2 = .ok true := by
  unfold settle
  dsimp only
  split_ifs <;> rfl

/-! ### Outcomes and statements -/

/-- What the `repr` of the exception raises. -/
def Outcome.reprError? : Outcome → Option PyError
  | .permanentError (.error error) => some error
  | .exception (.error error) => some error
  | _ => none

variable {worker : Worker} {job : JobRow ℚ} {outcome : Outcome}

theorem backoff_error {attempt : ℕ} {base cap : ℚ} {error : PyError}
    (h : backoff attempt base cap = .error error) : error = .overflowError ∧ 1024 < attempt := by
  unfold backoff powTwo at h
  split_ifs at h with hfits
  · cases h
  · cases h
    exact ⟨rfl, by omega⟩

/-- The three settle statements of `run_once`. -/
theorem settleKind_ok {kind : SettleKind ℚ} (h : settleKind worker job outcome = .ok kind) :
    (outcome = .returned ∧ kind = .ack) ∨
    (∃ text, outcome = .permanentError (.ok text) ∧ kind = .bury text) ∨
    ∃ text delay, outcome = .exception (.ok text) ∧
      backoff job.attempts worker.backoffBase worker.backoffCap = .ok delay ∧
      kind = .fail text delay := by
  cases outcome with
  | returned =>
    cases h
    exact .inl ⟨rfl, rfl⟩
  | permanentError error =>
    cases error with
    | error => cases h
    | ok text =>
      cases h
      exact .inr (.inl ⟨text, rfl, rfl⟩)
  | exception error =>
    rw [settleKind] at h
    cases hdelay : backoff job.attempts worker.backoffBase worker.backoffCap with
    | error =>
      rw [hdelay] at h
      cases h
    | ok delay =>
      rw [hdelay] at h
      cases error with
      | error => cases h
      | ok text =>
        cases h
        exact .inr (.inr ⟨text, delay, rfl, rfl, rfl⟩)

/-- The delay overflows, or the `repr` raises. -/
theorem settleKind_error {error : PyError} (h : settleKind worker job outcome = .error error) :
    (error = .overflowError ∧ 1024 < job.attempts) ∨ outcome.reprError? = some error := by
  cases outcome with
  | returned => cases h
  | permanentError repr =>
    cases repr with
    | error =>
      cases h
      exact .inr rfl
    | ok => cases h
  | exception repr =>
    rw [settleKind] at h
    cases hdelay : backoff job.attempts worker.backoffBase worker.backoffCap with
    | error =>
      rw [hdelay] at h
      cases h
      exact .inl (backoff_error hdelay)
    | ok delay =>
      rw [hdelay] at h
      cases repr with
      | error =>
        cases h
        exact .inr rfl
      | ok => cases h

end Relay.Workers
