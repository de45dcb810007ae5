import Relay.Store.Schema
import Relay.Foundations.Run

/-!
# The queue

The methods of `Queue` in `queue.py`, each as a function from the jobs table to the jobs table and
what the method returns or raises. Every method but `enqueue` issues one SQL statement, `enqueue`
up to two, so a run of the queue, by any number of producers and workers, is a sequence of
statements (`Statement`, `perform`, `Step`) in any order.

`ack`, `fail`, `bury` and `extend_lease` are one guarded `UPDATE` with four `SET` clauses: `settle`
is the statement with its row count check, and `SettleKind.set` the clauses. An update that matches
no row raises `StaleLeaseError`; it is performed all the same.
-/

set_option autoImplicit false
set_option relaxedAutoImplicit false

namespace Relay.Queue

open Foundations Store

/-- The exceptions of the program. The text of a `StaleLeaseError` is `job <job_id>: lease not held
by <worker_id>`; a `TypeError` comes from indexing a missing row, an `OverflowError` from a float
power and an `IntegrityError` from a failed `CHECK`. Code that is not part of the program, as the
`__repr__` of an exception of a handler, can raise any of these or another one. -/
inductive PyError
  | staleLeaseError (jobId : ℕ) (workerId : Option String)
  | typeError
  | overflowError
  | integrityError
  | other (name : String)
deriving DecidableEq, Repr

variable {τ : Type*}

/-! ### Producing -/

/-- The arguments of `enqueue`, with its defaults. The payload is given as its JSON text. -/
structure EnqueueArgs (τ : Type*) where
  kind : String
  payload : String := "null"
  priority : ℤ := 0
  maxAttempts : ℤ := 5
  delayS : τ
  idempotencyKey : Option String := none
  now : τ
deriving DecidableEq, Repr

/-- `json.dumps(payload or {})`: the values Python takes for false are those with these texts. -/
def dumpsOrEmpty (payload : String) : String :=
  if payload ∈ ["null", "false", "0", "0.0", "-0.0", "\"\"", "[]", "\x7b\x7d"] then "\x7b\x7d"
  else payload

@[simp] theorem dumpsOrEmpty_idem (payload : String) :
    dumpsOrEmpty (dumpsOrEmpty payload) = dumpsOrEmpty payload := by
  by_cases h : payload ∈ ["null", "false", "0", "0.0", "-0.0", "\"\"", "[]", "\x7b\x7d"]
  · rw [show dumpsOrEmpty payload = "\x7b\x7d" from if_pos h]
    rfl
  · rw [show dumpsOrEmpty payload = payload from if_neg h]
    exact if_neg h

/-- The row an `INSERT` of `enqueue` adds under an id. -/
def EnqueueArgs.row [Add τ] (args : EnqueueArgs τ) (id : ℕ) : JobRow τ where
  id := id
  kind := args.kind
  payload := dumpsOrEmpty args.payload
  status := .queued
  priority := args.priority
  attempts := 0
  maxAttempts := args.maxAttempts
  notBefore := args.now + args.delayS
  leaseUntil := none
  workerId := none
  idempotencyKey := args.idempotencyKey
  lastError := none
  createdAt := args.now
  updatedAt := args.now

/-- The first statement of `enqueue`, `INSERT … ON CONFLICT (idempotency_key) DO NOTHING`: the new
row id, or nothing when the key is taken. -/
def insert [Add τ] (jobs : Jobs τ) (args : EnqueueArgs τ) : Jobs τ × Option ℕ :=
  if h : ∃ row ∈ jobs.rows, SqlEq row.idempotencyKey args.idempotencyKey then (jobs.skipId, none)
  else
    (jobs.append (args.row (jobs.sequence + 1)) rfl fun old hold hkey ↦ h ⟨old, hold, hkey⟩,
      some (jobs.sequence + 1))

/-- The second statement of `enqueue`, `SELECT id FROM jobs WHERE idempotency_key = ?`. -/
def selectKey (jobs : Jobs τ) (key : Option String) : Option ℕ :=
  (jobs.rows.find? fun row ↦ SqlEq row.idempotencyKey key).map JobRow.id

/-- `Queue.enqueue`, when nothing comes between its statements. -/
def enqueue [Add τ] (jobs : Jobs τ) (args : EnqueueArgs τ) : Jobs τ × Except PyError ℕ :=
  match insert jobs args with
  | (jobs, some id) => (jobs, .ok id)
  | (jobs, none) =>
    match selectKey jobs args.idempotencyKey with
    | some id => (jobs, .ok id)
    | none => (jobs, .error .typeError)

/-! ### Consuming -/

section Order

variable [LinearOrder τ]

/-- Status `queued` and due. -/
def Ready (now : τ) (row : JobRow τ) : Prop := row.status = .queued ∧ row.notBefore ≤ now

instance (now : τ) (row : JobRow τ) : Decidable (Ready now row) :=
  inferInstanceAs (Decidable (_ ∧ _))

/-- Ready, and of one of the kinds when the claim names any. -/
def Claimable (kinds : Option (List String)) (now : τ) (row : JobRow τ) : Prop :=
  Ready now row ∧ ∀ ks ∈ kinds, row.kind ∈ ks

instance (kinds : Option (List String)) (now : τ) (row : JobRow τ) :
    Decidable (Claimable kinds now row) := inferInstanceAs (Decidable (_ ∧ _))

end Order

/-- `ORDER BY priority DESC, id ASC`. -/
def ClaimOrder (a b : JobRow τ) : Prop :=
  b.priority < a.priority ∨ (a.priority = b.priority ∧ a.id ≤ b.id)

instance : DecidableRel (ClaimOrder : JobRow τ → JobRow τ → Prop) :=
  fun _ _ ↦ inferInstanceAs (Decidable (_ ∨ _))

instance : Std.Total (ClaimOrder : JobRow τ → JobRow τ → Prop) where
  total a b := by
    unfold ClaimOrder
    omega

instance : IsTrans (JobRow τ) ClaimOrder where
  trans a b c hab hbc := by
    unfold ClaimOrder at *
    omega

section Statements

variable [Add τ]

/-- The `SET` clause of `claim`. -/
def claimed (workerId : Option String) (leaseS now : τ) (row : JobRow τ) : JobRow τ :=
  { row with
    status := .leased
    attempts := row.attempts + 1
    workerId := workerId
    leaseUntil := some (now + leaseS)
    updatedAt := now }

@[simp] theorem ticket_claimed (workerId : Option String) (leaseS now : τ) (row : JobRow τ) :
    (claimed workerId leaseS now row).ticket = row.ticket := rfl

variable [LinearOrder τ]

/-- `Queue.claim`: `UPDATE … WHERE id = (SELECT … LIMIT 1) RETURNING *`. An empty list of kinds
returns before the statement. -/
def claim (jobs : Jobs τ) (workerId : Option String) (kinds : Option (List String))
    (leaseS now : τ) : Jobs τ × Option (JobRow τ) :=
  if kinds = some [] then (jobs, none)
  else
    let candidate := ((Table.selectOrdered ClaimOrder (Claimable kinds now) jobs.rows).head?).map
      JobRow.id
    (jobs.update (fun row ↦ SqlEq (some row.id) candidate) (claimed workerId leaseS now)
        (ticket_claimed workerId leaseS now),
      (Table.touched (fun row ↦ SqlEq (some row.id) candidate) (claimed workerId leaseS now)
        jobs.rows).head?)

/-- `attempts >= max_attempts`. -/
def Exhausted (row : JobRow τ) : Prop := row.maxAttempts ≤ row.attempts

instance (row : JobRow τ) : Decidable (Exhausted row) := inferInstanceAs (Decidable (_ ≤ _))

/-- `WHERE id = ? AND status = 'leased' AND worker_id = ? AND lease_until >= ?`. -/
def HoldsLease (jobId : ℕ) (workerId : Option String) (now : τ) (row : JobRow τ) : Prop :=
  row.id = jobId ∧ row.status = .leased ∧ SqlEq row.workerId workerId ∧
    ∃ deadline ∈ row.leaseUntil, now ≤ deadline

instance (jobId : ℕ) (workerId : Option String) (now : τ) (row : JobRow τ) :
    Decidable (HoldsLease jobId workerId now row) :=
  inferInstanceAs (Decidable (_ ∧ _ ∧ _ ∧ _))

/-- The four statements that need a live lease, with the arguments only they take. -/
inductive SettleKind (τ : Type*)
  | ack
  | fail (error : String) (retryIn : τ)
  | bury (error : String)
  | extendLease (leaseS : τ)
deriving DecidableEq, Repr

/-- The `SET` clauses of `ack`, `fail`, `bury` and `extend_lease`. -/
def SettleKind.set (now : τ) : SettleKind τ → JobRow τ → JobRow τ
  | .ack, row => { row with status := .done, leaseUntil := none, updatedAt := now }
  | .fail error retryIn, row =>
    { row with
      status := if Exhausted row then .dead else .queued
      notBefore := now + retryIn
      lastError := some error
      leaseUntil := none
      workerId := none
      updatedAt := now }
  | .bury error, row =>
    { row with
      status := .dead
      lastError := some error
      leaseUntil := none
      workerId := none
      updatedAt := now }
  | .extendLease leaseS, row => { row with leaseUntil := some (now + leaseS), updatedAt := now }

omit [LinearOrder τ] in
@[simp] theorem SettleKind.ticket_set (now : τ) (kind : SettleKind τ) (row : JobRow τ) :
    (kind.set now row).ticket = row.ticket := by
  cases kind <;> rfl

/-- A guarded `UPDATE`; when it matches no row, `StaleLeaseError`. -/
def settle (jobs : Jobs τ) (kind : SettleKind τ) (jobId : ℕ) (workerId : Option String) (now : τ) :
    Jobs τ × Except PyError Unit :=
  (jobs.update (HoldsLease jobId workerId now) (kind.set now) (kind.ticket_set now),
    if (Table.touched (HoldsLease jobId workerId now) (kind.set now) jobs.rows).length = 0 then
      .error (.staleLeaseError jobId workerId)
    else .ok ())

/-- `Queue.ack`. -/
def ack (jobs : Jobs τ) (jobId : ℕ) (workerId : Option String) (now : τ) :
    Jobs τ × Except PyError Unit := settle jobs .ack jobId workerId now

/-- `Queue.fail`. -/
def fail (jobs : Jobs τ) (jobId : ℕ) (workerId : Option String) (error : String)
    (retryIn now : τ) : Jobs τ × Except PyError Unit :=
  settle jobs (.fail error retryIn) jobId workerId now

/-- `Queue.bury`. -/
def bury (jobs : Jobs τ) (jobId : ℕ) (workerId : Option String) (error : String) (now : τ) :
    Jobs τ × Except PyError Unit := settle jobs (.bury error) jobId workerId now

/-- `Queue.extend_lease`. -/
def extendLease (jobs : Jobs τ) (jobId : ℕ) (workerId : Option String) (leaseS now : τ) :
    Jobs τ × Except PyError Unit := settle jobs (.extendLease leaseS) jobId workerId now

/-! ### Maintenance -/

/-- `WHERE status = 'leased' AND lease_until < ?`. -/
def Expired (now : τ) (row : JobRow τ) : Prop :=
  row.status = .leased ∧ ∃ deadline ∈ row.leaseUntil, deadline < now

omit [Add τ] in
instance (now : τ) (row : JobRow τ) : Decidable (Expired now row) :=
  inferInstanceAs (Decidable (_ ∧ _))

/-- The `SET` clause of `release_expired`. -/
def released (now : τ) (row : JobRow τ) : JobRow τ :=
  { row with
    status := if Exhausted row then .dead else .queued
    lastError := if Exhausted row then some "lease expired" else row.lastError
    leaseUntil := none
    workerId := none
    updatedAt := now }

omit [Add τ] [LinearOrder τ] in
@[simp] theorem ticket_released (now : τ) (row : JobRow τ) :
    (released now row).ticket = row.ticket := rfl

/-- `Queue.release_expired`. -/
def releaseExpired (jobs : Jobs τ) (now : τ) : Jobs τ × ℕ :=
  (jobs.update (Expired now) (released now) (ticket_released now),
    (Table.touched (Expired now) (released now) jobs.rows).length)

/-- `WHERE status = 'dead'`, with `AND id = ?` when a job is named. -/
def Requeueable (jobId : Option ℕ) (row : JobRow τ) : Prop :=
  row.status = .dead ∧ ∀ id ∈ jobId, row.id = id

instance (jobId : Option ℕ) (row : JobRow τ) : Decidable (Requeueable jobId row) :=
  inferInstanceAs (Decidable (_ ∧ _))

/-- The `SET` clause of `requeue_dead`. -/
def requeued (now : τ) (row : JobRow τ) : JobRow τ :=
  { row with status := .queued, attempts := 0, notBefore := now, updatedAt := now }

omit [Add τ] [LinearOrder τ] in
@[simp] theorem ticket_requeued (now : τ) (row : JobRow τ) :
    (requeued now row).ticket = row.ticket := rfl

/-- `Queue.requeue_dead`. -/
def requeueDead (jobs : Jobs τ) (jobId : Option ℕ) (now : τ) : Jobs τ × ℕ :=
  (jobs.update (Requeueable jobId) (requeued now) (ticket_requeued now),
    (Table.touched (Requeueable jobId) (requeued now) jobs.rows).length)

/-! ### Introspection -/

/-- `SELECT COUNT(*) FROM jobs WHERE status = 'queued' AND not_before <= ?`. -/
def readyCount (jobs : Jobs τ) (now : τ) : ℕ := jobs.rows.countP fun row ↦ Ready now row

/-- One group of `SELECT status, COUNT(*) FROM jobs GROUP BY status`. -/
def statusCount (jobs : Jobs τ) (status : Status) : ℕ :=
  jobs.rows.countP fun row ↦ row.status = status

/-- What `stats` returns. -/
structure Stats where
  queued : ℕ
  leased : ℕ
  done : ℕ
  dead : ℕ
  ready : ℕ
deriving DecidableEq, Repr

/-- `Queue.stats`, when nothing comes between its two statements. -/
def stats (jobs : Jobs τ) (now : τ) : Stats where
  queued := statusCount jobs .queued
  leased := statusCount jobs .leased
  done := statusCount jobs .done
  dead := statusCount jobs .dead
  ready := readyCount jobs now

end Statements

end Relay.Queue
