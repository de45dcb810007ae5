import Relay.Queue.Operations

/-!
# The queue, one job at a time

`Statement` lists the SQL statements of the queue with their arguments, `perform` runs one on the
jobs table, and `Step` is one entry of a history: a statement and what it answered. The statements
of any number of processes, in any order, are a `Run` of `Step`.

`RowStep` says once what a step can do to one row. It is inserted, claimed, settled under a live
lease, released after its deadline or requeued from `dead`, or the step does not touch it.
`Step.rowStep` proves this of every statement, so `run_row` turns a run of the table into a run of
each of its rows, and the results about jobs are proved on single rows.
-/

set_option autoImplicit false
set_option relaxedAutoImplicit false

namespace Relay.Queue

open Foundations Store

variable {τ : Type*}

/-! ### Statements and histories -/

/-- The SQL statements of the queue. -/
inductive Statement (τ : Type*)
  | insert (args : EnqueueArgs τ)
  | selectKey (key : Option String)
  | claim (workerId : Option String) (kinds : Option (List String)) (leaseS now : τ)
  | settle (kind : SettleKind τ) (jobId : ℕ) (workerId : Option String) (now : τ)
  | releaseExpired (now : τ)
  | requeueDead (jobId : Option ℕ) (now : τ)
deriving DecidableEq

/-- What a statement answers: an id, the claimed job, a result or the ids of the rows it touched,
of which the method returns the number. -/
inductive Reply (τ : Type*)
  | inserted (id : Option ℕ)
  | selected (id : Option ℕ)
  | claimed (job : Option (JobRow τ))
  | settled (result : Except PyError Unit)
  | touched (ids : List ℕ)
deriving DecidableEq

/-- One entry of a history. -/
structure Event (τ : Type*) where
  statement : Statement τ
  reply : Reply τ
deriving DecidableEq

section Perform

variable [Add τ] [LinearOrder τ]

/-- One statement on the jobs table. -/
def perform (jobs : Jobs τ) : Statement τ → Jobs τ × Reply τ
  | .insert args => ((insert jobs args).1, .inserted (insert jobs args).2)
  | .selectKey key => (jobs, .selected (selectKey jobs key))
  | .claim workerId kinds leaseS now =>
    ((claim jobs workerId kinds leaseS now).1, .claimed (claim jobs workerId kinds leaseS now).2)
  | .settle kind jobId workerId now =>
    ((settle jobs kind jobId workerId now).1, .settled (settle jobs kind jobId workerId now).2)
  | .releaseExpired now =>
    ((releaseExpired jobs now).1,
      .touched ((Table.touched (Expired now) (released now) jobs.rows).map JobRow.id))
  | .requeueDead jobId now =>
    ((requeueDead jobs jobId now).1,
      .touched ((Table.touched (Requeueable jobId) (requeued now) jobs.rows).map JobRow.id))

/-- One step of a run of the queue. -/
def Step (jobs : Jobs τ) (e : Event τ) (jobs' : Jobs τ) : Prop :=
  perform jobs e.statement = (jobs', e.reply)

/-- The history of a list of statements and the table it ends with. -/
abbrev exec (jobs : Jobs τ) (statements : List (Statement τ)) : List (Event τ) × Jobs τ :=
  execute (fun jobs statement ↦
    some (⟨statement, (perform jobs statement).2⟩, (perform jobs statement).1)) jobs statements

theorem run_exec (jobs : Jobs τ) (statements : List (Statement τ)) :
    Run Step jobs (exec jobs statements).1 (exec jobs statements).2 := by
  refine run_execute (fun jobs statement e jobs' h ↦ ?_) jobs statements
  obtain ⟨rfl, rfl⟩ := Prod.mk.inj (Option.some.inj h)
  rfl

end Perform

/-! ### What each statement does -/

section Insert

variable [Add τ]

/-- An insert whose key is taken changes no row; any other adds its row under a new id. -/
theorem insert_cases (jobs : Jobs τ) (args : EnqueueArgs τ) :
    ((∃ row ∈ jobs.rows, SqlEq row.idempotencyKey args.idempotencyKey) ∧
      insert jobs args = (jobs.skipId, none)) ∨
    ((∀ row ∈ jobs.rows, ¬ SqlEq row.idempotencyKey args.idempotencyKey) ∧
      ∃ jobs', insert jobs args = (jobs', some (jobs.sequence + 1)) ∧
        jobs'.sequence = jobs.sequence + 1 ∧
        jobs'.rows = jobs.rows ++ [args.row (jobs.sequence + 1)] ∧
        ∀ id, jobs'.row? id =
          if id = jobs.sequence + 1 then some (args.row (jobs.sequence + 1))
          else jobs.row? id) := by
  by_cases h : ∃ row ∈ jobs.rows, SqlEq row.idempotencyKey args.idempotencyKey
  · exact .inl ⟨h, dif_pos h⟩
  · refine .inr ⟨fun row hrow hkey ↦ h ⟨row, hrow, hkey⟩, _, dif_neg h, rfl, rfl, fun id ↦ ?_⟩
    exact Jobs.row?_append id

end Insert

section Claim

variable [Add τ] [LinearOrder τ]

/-- A claim with nothing to claim changes nothing; any other leases the first claimable row. -/
theorem claim_cases (jobs : Jobs τ) (workerId : Option String) (kinds : Option (List String))
    (leaseS now : τ) :
    (Table.selectOrdered ClaimOrder (Claimable kinds now) jobs.rows = [] ∧
      claim jobs workerId kinds leaseS now = (jobs, none)) ∨
    ∃ row rest, Table.selectOrdered ClaimOrder (Claimable kinds now) jobs.rows = row :: rest ∧
      claim jobs workerId kinds leaseS now =
        (jobs.update (fun other ↦ other.id = row.id) (claimed workerId leaseS now)
            (ticket_claimed workerId leaseS now),
          some (claimed workerId leaseS now row)) := by
  cases hselect : Table.selectOrdered ClaimOrder (Claimable kinds now) jobs.rows with
  | nil =>
    refine .inl ⟨rfl, ?_⟩
    unfold claim
    split_ifs with hkinds
    · rfl
    · have hnone : ∀ row ∈ jobs.rows, ¬ SqlEq (some row.id) (none : Option ℕ) :=
        fun _ _ ↦ not_sqlEq_none_right
      simp only [hselect, List.head?_nil, Option.map_none, Table.touched_eq_nil_iff.mpr hnone]
      exact Prod.ext (Jobs.ext (Table.updateWhere_of_forall_not hnone) rfl) rfl
  | cons row rest =>
    have hrow : row ∈ jobs.rows ∧ Claimable kinds now row :=
      Table.mem_selectOrdered.mp (hselect ▸ List.mem_cons_self ..)
    refine .inr ⟨row, rest, rfl, ?_⟩
    have hkinds : kinds ≠ some [] := by
      rintro rfl
      exact absurd (hrow.2.2 [] rfl) List.not_mem_nil
    have hp : ∀ other : JobRow τ, SqlEq (some other.id) (some row.id) ↔ other.id = row.id := by
      intro other
      rw [sqlEq_some_left, Option.some.injEq, eq_comm]
    have hfirst : (jobs.rows.filter fun other ↦ other.id = row.id) = [row] :=
      Table.filter_eq_singleton jobs.distinct hrow.1 rfl fun _ hid ↦ hid
    rw [claim, if_neg hkinds]
    simp only [hselect, List.head?_cons, Option.map_some, hp, Table.touched, hfirst,
      List.map_cons, List.map_nil]

omit [LinearOrder τ] in
/-- The rows after a claim: the one it returns has changed, the others have not. -/
theorem row?_claim {jobs : Jobs τ} {workerId : Option String} {leaseS now : τ} {row : JobRow τ}
    (hrow : row ∈ jobs.rows) (id : ℕ) :
    (jobs.update (fun other ↦ other.id = row.id) (claimed workerId leaseS now)
        (ticket_claimed workerId leaseS now)).row? id =
      if id = row.id then some (claimed workerId leaseS now row) else jobs.row? id := by
  rw [Jobs.row?_update]
  by_cases h : id = row.id
  · simp [h, Jobs.row?_of_mem hrow]
  · cases hother : jobs.row? id with
    | none => simp [h]
    | some other =>
      have hne : other.id ≠ row.id := Jobs.id_of_row? hother ▸ h
      simp [h, hne]

end Claim

section Settle

variable [Add τ] [LinearOrder τ]

/-- A settle statement succeeds on exactly the rows it changes. -/
theorem settle_ok_iff (jobs : Jobs τ) (kind : SettleKind τ) (jobId : ℕ) (workerId : Option String)
    (now : τ) : (settle jobs kind jobId workerId now).2 = .ok () ↔
      ∃ row, jobs.row? jobId = some row ∧ HoldsLease jobId workerId now row := by
  have hlength : (Table.touched (HoldsLease jobId workerId now) (kind.set now) jobs.rows).length = 0
      ↔ ∀ row ∈ jobs.rows, ¬ HoldsLease jobId workerId now row := by
    rw [List.length_eq_zero_iff, Table.touched_eq_nil_iff]
  constructor
  · intro h
    by_contra hnone
    have hall : ∀ row ∈ jobs.rows, ¬ HoldsLease jobId workerId now row := fun row hrow hrows ↦
      hnone ⟨row, hrows.1 ▸ Jobs.row?_of_mem hrow, hrows⟩
    rw [settle, if_pos (hlength.mpr hall)] at h
    cases h
  · rintro ⟨row, hrow, hguard⟩
    have hsome : ¬ ∀ row ∈ jobs.rows, ¬ HoldsLease jobId workerId now row :=
      fun hall ↦ hall row (Jobs.mem_of_row? hrow) hguard
    rw [settle, if_neg (mt hlength.mp hsome)]

/-- A settle statement that raises leaves the table as it was. -/
theorem settle_error {jobs : Jobs τ} {kind : SettleKind τ} {jobId : ℕ} {workerId : Option String}
    {now : τ} (h : (settle jobs kind jobId workerId now).2 ≠ .ok ()) :
    settle jobs kind jobId workerId now = (jobs, .error (.staleLeaseError jobId workerId)) := by
  have hnone : ∀ row ∈ jobs.rows, ¬ HoldsLease jobId workerId now row := fun row hrow hguard ↦
    h ((settle_ok_iff jobs kind jobId workerId now).mpr
      ⟨row, hguard.1 ▸ Jobs.row?_of_mem hrow, hguard⟩)
  refine Prod.ext (Jobs.ext (Table.updateWhere_of_forall_not hnone) rfl) ?_
  exact if_pos (List.length_eq_zero_iff.mpr (Table.touched_eq_nil_iff.mpr hnone))

theorem row?_settle (jobs : Jobs τ) (kind : SettleKind τ) (jobId : ℕ) (workerId : Option String)
    (now : τ) (id : ℕ) : (settle jobs kind jobId workerId now).1.row? id =
      (jobs.row? id).map fun row ↦
        if HoldsLease jobId workerId now row then kind.set now row else row :=
  Jobs.row?_update jobs (HoldsLease jobId workerId now) (kind.ticket_set now) id

end Settle

/-- The ids an update returns are those of the rows that match. -/
theorem mem_touchedIds (jobs : Jobs τ) (p : JobRow τ → Prop) [DecidablePred p]
    {set : JobRow τ → JobRow τ} (keeps : ∀ row, (set row).ticket = row.ticket) (id : ℕ) :
    id ∈ (Table.touched p set jobs.rows).map JobRow.id ↔
      ∃ row, jobs.row? id = some row ∧ p row := by
  have hid : ∀ row, (set row).id = row.id := fun row ↦ congrArg Ticket.id (keeps row)
  constructor
  · intro h
    obtain ⟨new, hnew, rfl⟩ := List.mem_map.mp h
    obtain ⟨row, hrow, hp, rfl⟩ := Table.mem_touched.mp hnew
    exact ⟨row, hid row ▸ Jobs.row?_of_mem hrow, hp⟩
  · rintro ⟨row, hrow, hp⟩
    have htouched : set row ∈ Table.touched p set jobs.rows :=
      Table.mem_touched.mpr ⟨row, Jobs.mem_of_row? hrow, hp, rfl⟩
    refine List.mem_map.mpr ⟨set row, htouched, ?_⟩
    rw [hid, Jobs.id_of_row? hrow]

/-! ### One row -/

/-- The step names the job: it returned its id, claimed it, settled it or touched it. -/
def Event.Touches (j : ℕ) : Event τ → Prop
  | ⟨.insert _, .inserted id⟩ => id = some j
  | ⟨.claim .., .claimed job⟩ => job.map JobRow.id = some j
  | ⟨.settle _ jobId _ _, .settled result⟩ => jobId = j ∧ result = .ok ()
  | ⟨_, .touched ids⟩ => j ∈ ids
  | _ => False

/-- A successful claim of job `j`. -/
def Event.Claims (j : ℕ) : Event τ → Prop
  | ⟨.claim .., .claimed job⟩ => job.map JobRow.id = some j
  | _ => False

/-- A `fail` of job `j` that succeeded. -/
def Event.Fails (j : ℕ) : Event τ → Prop
  | ⟨.settle (.fail ..) jobId _ _, .settled result⟩ => jobId = j ∧ result = .ok ()
  | _ => False

/-- A `release_expired` that took job `j`. -/
def Event.Releases (j : ℕ) : Event τ → Prop
  | ⟨.releaseExpired _, .touched ids⟩ => j ∈ ids
  | _ => False

/-- A `requeue_dead` that moved job `j`. -/
def Event.Requeues (j : ℕ) : Event τ → Prop
  | ⟨.requeueDead .., .touched ids⟩ => j ∈ ids
  | _ => False

instance (j : ℕ) : DecidablePred (Event.Claims j : Event τ → Prop) := fun e ↦ by
  unfold Event.Claims
  split <;> infer_instance

instance (j : ℕ) : DecidablePred (Event.Requeues j : Event τ → Prop) := fun e ↦ by
  unfold Event.Requeues
  split <;> infer_instance

theorem Event.Claims.touches {j : ℕ} {e : Event τ} (h : e.Claims j) : e.Touches j := by
  unfold Event.Claims at h
  split at h
  · exact h
  · exact h.elim

theorem Event.Fails.touches {j : ℕ} {e : Event τ} (h : e.Fails j) : e.Touches j := by
  unfold Event.Fails at h
  split at h
  · exact h
  · exact h.elim

theorem Event.Releases.touches {j : ℕ} {e : Event τ} (h : e.Releases j) : e.Touches j := by
  unfold Event.Releases at h
  split at h
  · exact h
  · exact h.elim

theorem Event.Requeues.touches {j : ℕ} {e : Event τ} (h : e.Requeues j) : e.Touches j := by
  unfold Event.Requeues at h
  split at h
  · exact h
  · exact h.elim

/-- What a step can do to the row with id `j`. -/
inductive RowStep [Add τ] [LinearOrder τ] (j : ℕ) :
    Event τ → Option (JobRow τ) → Option (JobRow τ) → Prop
  | onInsert (args : EnqueueArgs τ) :
      RowStep j ⟨.insert args, .inserted (some j)⟩ none (some (args.row j))
  | onClaim {row : JobRow τ} (workerId : Option String) (kinds : Option (List String))
      (leaseS now : τ) (hid : row.id = j) (hclaim : Claimable kinds now row) :
      RowStep j
        ⟨.claim workerId kinds leaseS now, .claimed (some (claimed workerId leaseS now row))⟩
        (some row) (some (claimed workerId leaseS now row))
  | onSettle {row : JobRow τ} (kind : SettleKind τ) (workerId : Option String) (now : τ)
      (hguard : HoldsLease j workerId now row) :
      RowStep j ⟨.settle kind j workerId now, .settled (.ok ())⟩ (some row)
        (some (kind.set now row))
  | onRelease {row : JobRow τ} (now : τ) (ids : List ℕ) (hmem : j ∈ ids)
      (hexpired : Expired now row) :
      RowStep j ⟨.releaseExpired now, .touched ids⟩ (some row) (some (released now row))
  | onRequeue {row : JobRow τ} (jobId : Option ℕ) (now : τ) (ids : List ℕ) (hmem : j ∈ ids)
      (hdead : Requeueable jobId row) :
      RowStep j ⟨.requeueDead jobId now, .touched ids⟩ (some row) (some (requeued now row))
  | untouched {e : Event τ} (row? : Option (JobRow τ)) (h : ¬ e.Touches j) : RowStep j e row? row?

section Machine

variable [Add τ] [LinearOrder τ]

/-- Every statement takes one of these steps on every row. -/
theorem Step.rowStep {jobs jobs' : Jobs τ} {e : Event τ} (h : Step jobs e jobs') (j : ℕ) :
    RowStep j e (jobs.row? j) (jobs'.row? j) := by
  obtain ⟨statement, reply⟩ := e
  cases statement with
  | insert args =>
    obtain ⟨rfl, rfl⟩ := Prod.mk.inj h
    rcases insert_cases jobs args with ⟨-, hinsert⟩ | ⟨-, jobs', hinsert, -, -, hrows⟩
    · rw [hinsert]
      exact .untouched _ (by simp [Event.Touches])
    · rw [hinsert]
      by_cases hj : j = jobs.sequence + 1
      · have hnone : jobs.row? j = none := Jobs.row?_of_sequence_lt (by omega)
        rw [hrows, if_pos hj, hnone, ← hj]
        exact .onInsert args
      · rw [hrows, if_neg hj]
        exact .untouched _ (by simpa [Event.Touches] using Ne.symm hj)
  | selectKey key =>
    obtain ⟨rfl, rfl⟩ := Prod.mk.inj h
    exact .untouched _ (by simp [Event.Touches])
  | claim workerId kinds leaseS now =>
    obtain ⟨rfl, rfl⟩ := Prod.mk.inj h
    rcases claim_cases jobs workerId kinds leaseS now with ⟨-, hclaim⟩ | ⟨row, rest, hrow, hclaim⟩
    · rw [hclaim]
      exact .untouched _ (by simp [Event.Touches])
    · rw [hclaim]
      obtain ⟨hmem, hready⟩ := Table.mem_selectOrdered.mp (hrow ▸ List.mem_cons_self ..)
      rw [row?_claim hmem]
      by_cases hj : j = row.id
      · rw [if_pos hj, hj, Jobs.row?_of_mem hmem]
        exact .onClaim workerId kinds leaseS now rfl hready
      · rw [if_neg hj]
        refine .untouched _ fun htouch ↦ hj ?_
        exact (Option.some.inj htouch).symm
  | settle kind jobId workerId now =>
    obtain ⟨rfl, rfl⟩ := Prod.mk.inj h
    have hok := settle_ok_iff jobs kind jobId workerId now
    rcases jobs.row?_update_cases (HoldsLease jobId workerId now) (kind.ticket_set now) j with
      ⟨row, hrow, hguard, hnew⟩ | ⟨hnot, hold⟩
    · obtain rfl : jobId = j := hguard.1.symm.trans (Jobs.id_of_row? hrow)
      rw [settle, hnew, hrow, ← settle, hok.mpr ⟨row, hrow, hguard⟩]
      exact .onSettle kind workerId now hguard
    · rw [show (settle jobs kind jobId workerId now).1.row? j = jobs.row? j from hold]
      refine .untouched _ ?_
      rintro ⟨rfl, hresult⟩
      exact hnot (hok.mp hresult)
  | releaseExpired now =>
    obtain ⟨rfl, rfl⟩ := Prod.mk.inj h
    have hids := mem_touchedIds jobs (Expired now) (ticket_released now) j
    rcases jobs.row?_update_cases (Expired now) (ticket_released now) j with
      ⟨row, hrow, hexpired, hnew⟩ | ⟨hnot, hold⟩
    · rw [releaseExpired, hnew, hrow]
      exact .onRelease now _ (hids.mpr ⟨row, hrow, hexpired⟩) hexpired
    · rw [releaseExpired, hold]
      exact .untouched _ (mt hids.mp hnot)
  | requeueDead jobId now =>
    obtain ⟨rfl, rfl⟩ := Prod.mk.inj h
    have hids := mem_touchedIds jobs (Requeueable jobId) (ticket_requeued now) j
    rcases jobs.row?_update_cases (Requeueable jobId) (ticket_requeued now) j with
      ⟨row, hrow, hdead, hnew⟩ | ⟨hnot, hold⟩
    · rw [requeueDead, hnew, hrow]
      exact .onRequeue jobId now _ (hids.mpr ⟨row, hrow, hdead⟩) hdead
    · rw [requeueDead, hold]
      exact .untouched _ (mt hids.mp hnot)

/-- A run of the table is, on every row, a run of that row. -/
theorem run_row {jobs jobs' : Jobs τ} {es : List (Event τ)} (h : Run Step jobs es jobs') (j : ℕ) :
    Run (fun row? e row?' ↦ RowStep j e row? row?') (jobs.row? j) es (jobs'.row? j) := by
  induction h with
  | nil => exact .nil _
  | cons head _ ih => exact .cons (head.rowStep j) ih

end Machine

end Relay.Queue
