import Relay.Queue.RowMachine
import Mathlib.Algebra.Order.Field.Rat
import Mathlib.Order.Monotone.Basic

/-!
# Another clock

The statements of the queue compare times with each other and add spans to them, and do nothing else
with them: no time is compared with a constant and no column has a marker among its times. So where
its processes count time from does not matter, nor the unit they count it in. A `ClockChange` is a
change of both, and every history, with its times changed, is the history of the changed statements
on the changed table (`exec_clockChange`).
-/

set_option autoImplicit false
set_option relaxedAutoImplicit false

namespace Relay.Queue

open Foundations Store

/-- A change of clock: it keeps the order of times, and takes a time after a span to the changed
time after the changed span. -/
structure ClockChange (τ τ' : Type*) [Add τ] [LinearOrder τ] [Add τ'] [LinearOrder τ'] where
  time : τ → τ'
  span : τ → τ'
  strictMono : StrictMono time
  time_add : ∀ start length, time (start + length) = time start + span length

/-- Another unit and another start of the clock. -/
def ClockChange.affine (factor start : ℚ) (hpos : 0 < factor) : ClockChange ℚ ℚ where
  time := fun t ↦ factor * t + start
  span := fun d ↦ factor * d
  strictMono := fun _ _ h ↦ by
    have := mul_lt_mul_of_pos_left h hpos
    simpa using this
  time_add := fun t d ↦ by ring

namespace ClockChange

variable {τ τ' : Type*} [Add τ] [LinearOrder τ] [Add τ'] [LinearOrder τ'] (c : ClockChange τ τ')

/-! ### Tables and statements under a change -/

def row (row : JobRow τ) : JobRow τ' where
  id := row.id
  kind := row.kind
  payload := row.payload
  status := row.status
  priority := row.priority
  attempts := row.attempts
  maxAttempts := row.maxAttempts
  notBefore := c.time row.notBefore
  leaseUntil := row.leaseUntil.map c.time
  workerId := row.workerId
  idempotencyKey := row.idempotencyKey
  lastError := row.lastError
  createdAt := c.time row.createdAt
  updatedAt := c.time row.updatedAt

def jobs (jobs : Jobs τ) : Jobs τ' where
  rows := jobs.rows.map c.row
  sequence := jobs.sequence
  increasing := List.pairwise_map.mpr jobs.increasing
  bounded := by
    intro row hrow
    obtain ⟨old, hold, rfl⟩ := List.mem_map.mp hrow
    exact jobs.bounded old hold
  unique := List.pairwise_map.mpr jobs.unique

def args (args : EnqueueArgs τ) : EnqueueArgs τ' where
  kind := args.kind
  payload := args.payload
  priority := args.priority
  maxAttempts := args.maxAttempts
  delayS := c.span args.delayS
  idempotencyKey := args.idempotencyKey
  now := c.time args.now

def settleKind : SettleKind τ → SettleKind τ'
  | .ack => .ack
  | .fail error retryIn => .fail error (c.span retryIn)
  | .bury error => .bury error
  | .extendLease leaseS => .extendLease (c.span leaseS)

def statement : Statement τ → Statement τ'
  | .insert args => .insert (c.args args)
  | .selectKey key => .selectKey key
  | .claim workerId kinds leaseS now => .claim workerId kinds (c.span leaseS) (c.time now)
  | .settle kind jobId workerId now => .settle (c.settleKind kind) jobId workerId (c.time now)
  | .releaseExpired now => .releaseExpired (c.time now)
  | .requeueDead jobId now => .requeueDead jobId (c.time now)

def reply : Reply τ → Reply τ'
  | .inserted id => .inserted id
  | .selected id => .selected id
  | .claimed job => .claimed (job.map c.row)
  | .settled result => .settled result
  | .touched ids => .touched ids

def event (e : Event τ) : Event τ' := ⟨c.statement e.statement, c.reply e.reply⟩

/-! ### What the statements see and write -/

variable {now : τ} {row : JobRow τ}

@[simp] theorem id_row (row : JobRow τ) : (c.row row).id = row.id := rfl

theorem row_args (args : EnqueueArgs τ) (id : ℕ) : (c.args args).row id = c.row (args.row id) := by
  simp [ClockChange.args, ClockChange.row, EnqueueArgs.row, c.time_add]

theorem claimable_row (kinds : Option (List String)) :
    Claimable kinds (c.time now) (c.row row) ↔ Claimable kinds now row := by
  simp [Claimable, Ready, ClockChange.row, c.strictMono.le_iff_le]

theorem claimed_row (workerId : Option String) (leaseS now : τ) (row : JobRow τ) :
    claimed workerId (c.span leaseS) (c.time now) (c.row row) =
      c.row (claimed workerId leaseS now row) := by
  simp [claimed, ClockChange.row, c.time_add]

theorem holdsLease_row (jobId : ℕ) (workerId : Option String) :
    HoldsLease jobId workerId (c.time now) (c.row row) ↔ HoldsLease jobId workerId now row := by
  simp [HoldsLease, ClockChange.row, c.strictMono.le_iff_le]

theorem set_row (kind : SettleKind τ) (now : τ) (row : JobRow τ) :
    (c.settleKind kind).set (c.time now) (c.row row) = c.row (kind.set now row) := by
  cases kind with
  | ack => rfl
  | fail error retryIn =>
    simp only [ClockChange.settleKind, SettleKind.set, ← c.time_add]
    rfl
  | bury error => rfl
  | extendLease leaseS =>
    simp only [ClockChange.settleKind, SettleKind.set, ← c.time_add]
    rfl

theorem expired_row : Expired (c.time now) (c.row row) ↔ Expired now row := by
  simp [Expired, ClockChange.row, c.strictMono.lt_iff_lt]

theorem released_row (now : τ) (row : JobRow τ) :
    released (c.time now) (c.row row) = c.row (released now row) := rfl

theorem requeueable_row (jobId : Option ℕ) :
    Requeueable jobId (c.row row) ↔ Requeueable jobId row := Iff.rfl

theorem requeued_row (now : τ) (row : JobRow τ) :
    requeued (c.time now) (c.row row) = c.row (requeued now row) := rfl

/-! ### Statements -/

section Perform

variable (jobs : Jobs τ)

/-- The ids of the rows that an `UPDATE` touches, when it sees and writes the same under the
change. -/
theorem touched_jobs {p : JobRow τ → Prop} [DecidablePred p] {p' : JobRow τ' → Prop}
    [DecidablePred p'] {set : JobRow τ → JobRow τ} {set' : JobRow τ' → JobRow τ'}
    (hp : ∀ row, p' (c.row row) ↔ p row) (hset : ∀ row, set' (c.row row) = c.row (set row)) :
    (Table.touched p' set' (c.jobs jobs).rows).map JobRow.id =
      (Table.touched p set jobs.rows).map JobRow.id := by
  rw [ClockChange.jobs, Table.touched_map hp hset, List.map_map]
  rfl

theorem insert_jobs (args : EnqueueArgs τ) :
    insert (c.jobs jobs) (c.args args) = (c.jobs (insert jobs args).1, (insert jobs args).2) := by
  rcases insert_cases jobs args with ⟨⟨row, hrow, hkey⟩, hinsert⟩ | ⟨hfree, new, hinsert, hcount,
    hrows, -⟩
  · have htaken : ∃ row ∈ (c.jobs jobs).rows,
        SqlEq row.idempotencyKey (c.args args).idempotencyKey :=
      ⟨c.row row, List.mem_map_of_mem hrow, hkey⟩
    rcases insert_cases (c.jobs jobs) (c.args args) with ⟨-, hinsert'⟩ | ⟨hfree, -⟩
    · rw [hinsert, hinsert']
      rfl
    · obtain ⟨row', hrow', hkey'⟩ := htaken
      exact absurd hkey' (hfree row' hrow')
  · rcases insert_cases (c.jobs jobs) (c.args args) with ⟨⟨row', hrow', hkey'⟩, -⟩ | ⟨-, new',
      hinsert', hcount', hrows', -⟩
    · obtain ⟨row, hrow, rfl⟩ := List.mem_map.mp hrow'
      exact absurd hkey' (hfree row hrow)
    · rw [hinsert, hinsert']
      refine Prod.ext (Jobs.ext ?_ (hcount'.trans hcount.symm)) rfl
      rw [hrows', c.row_args]
      change _ = new.rows.map c.row
      rw [hrows, List.map_append]
      rfl

theorem selectKey_jobs (key : Option String) :
    selectKey (c.jobs jobs) key = selectKey jobs key := by
  rw [selectKey, ClockChange.jobs, List.find?_map, Option.map_map]
  rfl

theorem claim_jobs (workerId : Option String) (kinds : Option (List String)) (leaseS now : τ) :
    claim (c.jobs jobs) workerId kinds (c.span leaseS) (c.time now) =
      (c.jobs (claim jobs workerId kinds leaseS now).1,
        (claim jobs workerId kinds leaseS now).2.map c.row) := by
  have hselect : Table.selectOrdered ClaimOrder (Claimable kinds (c.time now)) (c.jobs jobs).rows =
      (Table.selectOrdered ClaimOrder (Claimable kinds now) jobs.rows).map c.row :=
    Table.selectOrdered_map (fun _ _ ↦ Iff.rfl) (fun _ ↦ c.claimable_row kinds) jobs.rows
  by_cases hkinds : kinds = some []
  · rw [claim, claim, if_pos hkinds, if_pos hkinds]
    rfl
  · rw [claim, claim, if_neg hkinds, if_neg hkinds]
    simp only [hselect, List.head?_map, Option.map_map, Function.comp_def, id_row]
    have hset := c.claimed_row workerId leaseS now
    refine Prod.ext (Jobs.ext (Table.updateWhere_map (fun _ ↦ Iff.rfl) hset jobs.rows) rfl) ?_
    rw [ClockChange.jobs, Table.touched_map (fun _ ↦ Iff.rfl) hset, List.head?_map]
    rfl

theorem settle_jobs (kind : SettleKind τ) (jobId : ℕ) (workerId : Option String) (now : τ) :
    settle (c.jobs jobs) (c.settleKind kind) jobId workerId (c.time now) =
      (c.jobs (settle jobs kind jobId workerId now).1,
        (settle jobs kind jobId workerId now).2) := by
  have hguard : ∀ row, HoldsLease jobId workerId (c.time now) (c.row row) ↔
      HoldsLease jobId workerId now row := fun _ ↦ c.holdsLease_row jobId workerId
  have htouched := Table.touched_map hguard (c.set_row kind now) jobs.rows
  refine Prod.ext (Jobs.ext (Table.updateWhere_map hguard (c.set_row kind now) jobs.rows) rfl) ?_
  rw [settle, settle, ClockChange.jobs, htouched, List.length_map]

/-- A statement, with its times changed, answers the same on the changed table, with the times of
the answer changed, and leaves the table it would leave, with the times changed. -/
theorem perform_statement (statement : Statement τ) :
    perform (c.jobs jobs) (c.statement statement) =
      (c.jobs (perform jobs statement).1, c.reply (perform jobs statement).2) := by
  cases statement with
  | insert args => exact congrArg (Prod.map id Reply.inserted) (c.insert_jobs jobs args)
  | selectKey key => exact Prod.ext rfl (congrArg Reply.selected (c.selectKey_jobs jobs key))
  | claim workerId kinds leaseS now =>
    exact congrArg (Prod.map id Reply.claimed) (c.claim_jobs jobs workerId kinds leaseS now)
  | settle kind jobId workerId now =>
    exact congrArg (Prod.map id Reply.settled) (c.settle_jobs jobs kind jobId workerId now)
  | releaseExpired now =>
    have hp : ∀ row, Expired (c.time now) (c.row row) ↔ Expired now row := fun _ ↦ c.expired_row
    have hset := c.released_row now
    exact Prod.ext (Jobs.ext (Table.updateWhere_map hp hset jobs.rows) rfl)
      (congrArg Reply.touched (c.touched_jobs jobs hp hset))
  | requeueDead jobId now =>
    have hp : ∀ row, Requeueable jobId (c.row row) ↔ Requeueable jobId row :=
      fun _ ↦ c.requeueable_row jobId
    have hset := c.requeued_row now
    exact Prod.ext (Jobs.ext (Table.updateWhere_map hp hset jobs.rows) rfl)
      (congrArg Reply.touched (c.touched_jobs jobs hp hset))

end Perform

/-- What a list of statements does and answers on the other clock. -/
theorem exec_statements (jobs : Jobs τ) (statements : List (Statement τ)) :
    exec (c.jobs jobs) (statements.map c.statement) =
      ((exec jobs statements).1.map c.event, c.jobs (exec jobs statements).2) := by
  induction statements generalizing jobs with
  | nil => rfl
  | cons statement rest ih =>
    have hperform := c.perform_statement jobs statement
    rw [List.map_cons, exec, execute, exec, execute]
    simp only [hperform]
    rw [← exec, ih]
    rfl

theorem stats_jobs (jobs : Jobs τ) (now : τ) :
    stats (c.jobs jobs) (c.time now) = stats jobs now := by
  have hready : ∀ row, Ready (c.time now) (c.row row) ↔ Ready now row := fun row ↦
    and_congr_right fun _ ↦ c.strictMono.le_iff_le
  simp only [stats, statusCount, readyCount, ClockChange.jobs, List.countP_map, Function.comp_def,
    hready]
  rfl

/-- The times of a history only matter to each other. Statements by any processes, in any order and
with any times, that are given on another clock and to the table on that clock have the same
history there, down to the ids, the jobs handed out and the errors: every entry, and the table they
leave, is the one they have on the first clock with its times changed, and `stats` counts the
same. -/
theorem exec_clockChange (jobs : Jobs τ) (statements : List (Statement τ)) :
    (exec (c.jobs jobs) (statements.map c.statement)).1 =
      (exec jobs statements).1.map c.event ∧
    (exec (c.jobs jobs) (statements.map c.statement)).2 = c.jobs (exec jobs statements).2 ∧
    ∀ now, stats (exec (c.jobs jobs) (statements.map c.statement)).2 (c.time now) =
      stats (exec jobs statements).2 now := by
  rw [c.exec_statements]
  exact ⟨rfl, rfl, c.stats_jobs _⟩

end ClockChange

/-- From seconds to milliseconds since another start. -/
def toMilliseconds : ClockChange ℚ ℚ := .affine 1000 5 (by norm_num)

/-- A job whose lease runs out. -/
def expiredLease : List (Statement ℚ) :=
  [.insert ⟨"email", "null", 0, 5, 1 / 2, none, 0⟩, .claim (some "w1") none 60 1,
    .releaseExpired 62]

theorem exec_clockChange_expiredLease :
    expiredLease.map toMilliseconds.statement =
      [.insert ⟨"email", "null", 0, 5, 500, none, 5⟩, .claim (some "w1") none 60000 1005,
        .releaseExpired 62005] ∧
    (exec (toMilliseconds.jobs Jobs.empty) (expiredLease.map toMilliseconds.statement)).1 =
      (exec Jobs.empty expiredLease).1.map toMilliseconds.event :=
  ⟨by decide +kernel, (toMilliseconds.exec_clockChange Jobs.empty expiredLease).1⟩

end Relay.Queue
