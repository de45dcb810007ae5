import Relay.Cli.Main
import Relay.Queue.DeliveryBudget

/-!
# Dead letters

What an operator sees of the dead jobs and can do about them. The lines of `relay dead list` are a
function of the history (`dead_list_reports`): each names a dead job, its kind, its deliveries since
it was enqueued or last requeued, and the error of the entry that ended the last of them. (The
entries of `release_expired` and `requeue_dead` have the ids of the rows they touched, where the
caller gets only their number.) A script that goes through the list and requeues each job leaves
none behind, whatever other processes do meanwhile (`dead_letters_retried`), and alone it does what
one `relay dead requeue` does, in any order (`requeue_each`).
-/

set_option autoImplicit false
set_option relaxedAutoImplicit false

namespace Relay.Cli

open Foundations Store Queue Relay.System

/-! ### What the history says of a job -/

section History

variable {τ : Type*} {j : ℕ}

/-- The kind of job `j`, in the entry that inserts it. -/
def insertedKind? (j : ℕ) : Queue.Event τ → Option String
  | ⟨.insert args, .inserted id⟩ => if id = some j then some args.kind else none
  | _ => none

/-- The error of an entry that ends a delivery of job `j` without an `ack`. -/
def endError? (j : ℕ) : Queue.Event τ → Option String
  | ⟨.settle (.fail error _) jobId _ _, .settled (.ok ())⟩ =>
    if jobId = j then some error else none
  | ⟨.settle (.bury error) jobId _ _, .settled (.ok ())⟩ => if jobId = j then some error else none
  | ⟨.releaseExpired _, .touched ids⟩ => if j ∈ ids then some "lease expired" else none
  | _ => none

/-- The line for a dead job, from the history alone. -/
def reportOf (es : List (Queue.Event τ)) (j : ℕ) : Option String := do
  let kind ← es.findSome? (insertedKind? j)
  let error ← (es.filterMap (endError? j)).getLast?
  return deadLine j kind (deliveriesSince j es) (some error)

theorem insertedKind?_eq_none {e : Queue.Event τ} (h : ¬ e.Touches j) :
    insertedKind? j e = none := by
  unfold insertedKind?
  split
  · exact if_neg h
  · rfl

theorem endError?_eq_none {e : Queue.Event τ} (h : ¬ e.Touches j) : endError? j e = none := by
  unfold endError?
  split
  · exact if_neg fun hid ↦ h ⟨hid, rfl⟩
  · exact if_neg fun hid ↦ h ⟨hid, rfl⟩
  · exact if_neg h
  · rfl

variable [Add τ] [LinearOrder τ] {e : Queue.Event τ} {es : List (Queue.Event τ)}
  {jobs jobs' : Jobs τ}

/-- Only the entry that inserts a job writes its kind. -/
theorem kind_of_rowStep {row? row?' : Option (JobRow τ)} (h : RowStep j e row? row?') :
    row?'.map JobRow.kind = (row?.map JobRow.kind).or (insertedKind? j e) := by
  cases h with
  | onInsert args => simp [insertedKind?, EnqueueArgs.row]
  | onSettle kind workerId now hguard => cases kind <;> rfl
  | untouched _ htouch => rw [insertedKind?_eq_none htouch, Option.or_none]
  | _ => rfl

theorem kind_of_history (h : Run Queue.Step Jobs.empty es jobs) (j : ℕ) :
    (jobs.row? j).map JobRow.kind = es.findSome? (insertedKind? j) := by
  refine h.history
    (motive := fun es jobs ↦ (jobs.row? j).map JobRow.kind = es.findSome? (insertedKind? j)) rfl ?_
  intro es jobs e jobs' _ ih hstep
  rw [kind_of_rowStep (hstep.rowStep j), ih, List.findSome?_append, List.findSome?_singleton]

/-- A dead job was dead before and is not touched, or the step took it there and gave it its
error. -/
theorem dead_of_rowStep {row? : Option (JobRow τ)} {row : JobRow τ}
    (h : RowStep j e row? (some row)) (hdead : row.status = .dead) :
    (row? = some row ∧ endError? j e = none) ∨
      ∃ error, row.lastError = some error ∧ endError? j e = some error := by
  cases h with
  | onInsert args => cases hdead
  | onClaim workerId kinds leaseS now hid hclaim => cases hdead
  | @onSettle row kind workerId now hguard =>
    cases kind with
    | ack => cases hdead
    | fail error retryIn => exact .inr ⟨error, rfl, if_pos rfl⟩
    | bury error => exact .inr ⟨error, rfl, if_pos rfl⟩
    | extendLease leaseS =>
      have hleased : row.status = .dead := hdead
      rw [hguard.2.1] at hleased
      cases hleased
  | @onRelease row now ids hmem hexpired =>
    have hspent : Exhausted row := by
      by_contra hleft
      simp [released, hleft] at hdead
    exact .inr ⟨"lease expired", if_pos hspent, if_pos hmem⟩
  | onRequeue jobId now ids hmem hrow => cases hdead
  | untouched _ htouch => exact .inl ⟨rfl, endError?_eq_none htouch⟩

/-- The error of a dead job is that of the last entry that ended a delivery of it. -/
theorem error_of_history (h : Run Queue.Step Jobs.empty es jobs) {row : JobRow τ}
    (hrow : jobs.row? j = some row) (hdead : row.status = .dead) :
    ∃ error, row.lastError = some error ∧
      (es.filterMap (endError? j)).getLast? = some error := by
  refine h.history (motive := fun es jobs ↦ ∀ row, jobs.row? j = some row → row.status = .dead →
    ∃ error, row.lastError = some error ∧ (es.filterMap (endError? j)).getLast? = some error)
    ?_ ?_ row hrow hdead
  · intro row hrow
    cases hrow
  · intro es jobs e jobs' _ ih hstep row hrow hdead
    have hrowStep := hstep.rowStep j
    rw [hrow] at hrowStep
    rw [List.filterMap_append]
    rcases dead_of_rowStep hrowStep hdead with ⟨hsame, hnone⟩ | ⟨error, hlast, hsome⟩
    · rw [List.filterMap_cons_none hnone, List.filterMap_nil, List.append_nil]
      exact ih row hsame hdead
    · refine ⟨error, hlast, ?_⟩
      rw [List.filterMap_cons_some hsome, List.filterMap_nil, List.getLast?_concat]

end History

/-! ### The list -/

section List

variable {τ : Type*}

theorem mem_deadRows {jobs : Jobs τ} {row : JobRow τ} :
    row ∈ deadRows jobs ↔ jobs.row? row.id = some row ∧ row.status = .dead := by
  rw [deadRows, Table.mem_selectOrdered, Jobs.row?_eq_some_iff]
  simp

/-- The list goes up in ids. -/
theorem deadRows_pairwise (jobs : Jobs τ) : (deadRows jobs).Pairwise fun a b ↦ a.id < b.id := by
  have hle : (deadRows jobs).Pairwise IdOrder := Table.selectOrdered_pairwise
  have hne : (deadRows jobs).Pairwise fun a b ↦ a.id ≠ b.id :=
    (Table.selectOrdered_perm.pairwise_iff fun h ↦ Ne.symm h).mpr (jobs.distinct.filter _)
  exact hle.imp₂ (fun a b hab hdiff ↦ Nat.lt_of_le_of_ne hab hdiff) hne

/-- It has as many lines as `stats` counts dead jobs. -/
theorem length_deadRows (jobs : Jobs τ) : (deadRows jobs).length = statusCount jobs .dead := by
  rw [deadRows, Table.selectOrdered_perm.length_eq, statusCount, List.countP_eq_length_filter]

end List

variable {timeText : ℚ → String} {s t : State} {es : List System.Event}

/-- The lines of `relay dead list` are a function of the history. In every reachable state they
stand for the dead jobs, in the order of their ids and as many as `stats` counts, and each is the
report of the history on its job: the kind it was inserted with, its deliveries since it was
inserted or last requeued, and the error of the last entry that ended a delivery of it. -/
theorem dead_list_reports (repr : String → String)
    (h : Run (System.Step timeText) (.start .empty) es s) (now : ℚ) :
    ∃ (ids : List ℕ) (lines : List String),
      main timeText repr s.db now .deadList = (s.db, .ok { stdout := lines }) ∧
      ids.Pairwise (· < ·) ∧
      (∀ j, j ∈ ids ↔ ∃ row, s.db.jobs.row? j = some row ∧ row.status = .dead) ∧
      lines.length = (Queue.stats s.db.jobs now).dead ∧
      lines.map some = ids.map (reportOf (es.filterMap System.Event.queue?)) := by
  have hqueue := run_queue h
  refine ⟨(deadRows s.db.jobs).map JobRow.id, _, rfl, ?_, fun j ↦ ?_, ?_, ?_⟩
  · exact List.pairwise_map.mpr (deadRows_pairwise s.db.jobs)
  · rw [List.mem_map]
    constructor
    · rintro ⟨row, hrow, rfl⟩
      exact ⟨row, mem_deadRows.mp hrow⟩
    · rintro ⟨row, hrow, hdead⟩
      obtain rfl := Jobs.id_of_row? hrow
      exact ⟨row, mem_deadRows.mpr ⟨hrow, hdead⟩, rfl⟩
  · rw [List.length_map, length_deadRows]
    rfl
  · rw [List.map_map, List.map_map]
    refine List.map_congr_left fun row hrow ↦ ?_
    obtain ⟨hfound, hdead⟩ := mem_deadRows.mp hrow
    have hkind := kind_of_history hqueue row.id
    have hattempts := attempts_eq_deliveriesSince (j := row.id) hqueue
    obtain ⟨error, hlast, herror⟩ := error_of_history hqueue hfound hdead
    rw [hfound] at hkind hattempts
    have hcount : row.attempts = deliveriesSince row.id (es.filterMap System.Event.queue?) :=
      hattempts
    simp only [Function.comp_apply, reportOf, ← hkind, herror, hlast, hcount]
    rfl

/-- A worker buries its job. Another is given the next one, for its last attempt, and stops. -/
def twoDeaths : List Action :=
  [.enqueue 0 ⟨"email", "null", 0, 5, 0, none, 0⟩, .enqueue 1 ⟨"report", "null", 0, 1, 0, none, 0⟩,
    .claim 2 ⟨"w1", 60, 1, 300, ["email"]⟩ 0, .handled 2 (.permanentError (.ok "KeyError('to')")),
    .resume 2, .claim 3 ⟨"w2", 60, 1, 300, ["report"]⟩ 1, .call (.releaseExpired 90)]

def afterDeaths : State := (runActions wholeSeconds (.start .empty) twoDeaths).2

theorem dead_list_reports_twoDeaths :
    (∃ (ids : List ℕ) (lines : List String),
      main wholeSeconds id afterDeaths.db 99 .deadList =
        (afterDeaths.db, .ok { stdout := lines }) ∧
      lines.map some = ids.map (reportOf
        ((runActions wholeSeconds (.start .empty) twoDeaths).1.filterMap System.Event.queue?))) ∧
    (main wholeSeconds id afterDeaths.db 99 .deadList).2 = .ok
      { stdout := ["1  email  attempts=1  KeyError('to')",
          "2  report  attempts=1  lease expired"] } := by
  obtain ⟨ids, lines, hmain, -, -, -, hlines⟩ :=
    dead_list_reports id (run_runActions wholeSeconds (.start .empty) twoDeaths) 99
  exact ⟨⟨ids, lines, hmain, hlines⟩, by decide +kernel⟩

/-! ### Requeueing the list -/

section Requeue

variable {τ : Type*} [Add τ] [LinearOrder τ] {j : ℕ} {e : Queue.Event τ}
  {history : List (Queue.Event τ)} {jobs jobs' : Jobs τ} {row : JobRow τ}

/-- A dead job is requeued or stays as it is. -/
theorem requeued_of_rowStep {row?' : Option (JobRow τ)} (h : RowStep j e (some row) row?')
    (hdead : row.status = .dead) :
    (row?' = some row ∧ ¬ e.Requeues j) ∨
      (e.Requeues j ∧ ∃ now, row?' = some (requeued now row)) := by
  cases h with
  | onClaim workerId kinds leaseS now hid hclaim =>
    rw [hclaim.1.1] at hdead
    cases hdead
  | onSettle kind workerId now hguard =>
    rw [hguard.2.1] at hdead
    cases hdead
  | onRelease now ids hmem hexpired =>
    rw [hexpired.1] at hdead
    cases hdead
  | onRequeue jobId now ids hmem hrow => exact .inr ⟨hmem, now, rfl⟩
  | untouched _ htouch => exact .inl ⟨rfl, mt Event.Requeues.touches htouch⟩

/-- What becomes of a dead job: it stays as it is until it is requeued, then waits as the requeue
has left it until it is delivered. -/
theorem retried_of_run (h : Run Queue.Step jobs history jobs') (hrow : jobs.row? j = some row)
    (hdead : row.status = .dead) :
    (revivals j history = 0 ∧ jobs'.row? j = some row) ∨ (1 ≤ revivals j history ∧
      ((∃ now, jobs'.row? j = some (requeued now row)) ∨ 1 ≤ deliveries j history)) := by
  refine h.history (motive := fun history jobs' ↦
    (revivals j history = 0 ∧ jobs'.row? j = some row) ∨ (1 ≤ revivals j history ∧
      ((∃ now, jobs'.row? j = some (requeued now row)) ∨ 1 ≤ deliveries j history)))
    (.inl ⟨rfl, hrow⟩) ?_
  intro history jobs' e jobs'' _ ih hstep
  have hrowStep := hstep.rowStep j
  rw [revivals_append, deliveries_append]
  rcases ih with ⟨hnone, hsame⟩ | ⟨hrevived, ⟨now, hwaits⟩ | hdelivered⟩
  · rw [hsame] at hrowStep
    rcases requeued_of_rowStep hrowStep hdead with ⟨hsame', hnot⟩ | ⟨hrequeues, hrequeued⟩
    · exact .inl ⟨by rw [hnone, if_neg hnot], hsame'⟩
    · exact .inr ⟨by rw [if_pos hrequeues]; exact Nat.le_add_left 1 _, .inl hrequeued⟩
  · rw [hwaits] at hrowStep
    refine .inr ⟨Nat.le_add_right_of_le hrevived, ?_⟩
    rcases hrowStep.queued rfl with ⟨hsame, -⟩ | ⟨workerId, kinds, leaseS, time, rfl, -, -⟩
    · exact .inl ⟨now, hsame⟩
    · have hid : row.id = j := Jobs.id_of_row? hrow
      have hclaims : Event.Claims j
          (⟨.claim workerId kinds leaseS time,
            .claimed (some (claimed workerId leaseS time (requeued now row)))⟩ : Queue.Event τ) :=
        congrArg some hid
      rw [if_pos hclaims]
      exact .inr (Nat.le_add_left 1 _)
  · exact .inr ⟨Nat.le_add_right_of_le hrevived, .inr (Nat.le_add_right_of_le hdelivered)⟩

/-- A dead job is among those that a `requeue_dead` of all jobs or of this one moves. -/
theorem requeues_of_step {jobId : Option ℕ} {now : τ} {reply : Reply τ}
    (h : Queue.Step jobs ⟨.requeueDead jobId now, reply⟩ jobs') (hrow : jobs.row? j = some row)
    (hdead : row.status = .dead) (hjob : ∀ id ∈ jobId, id = j) :
    Event.Requeues j ⟨.requeueDead jobId now, reply⟩ := by
  obtain ⟨-, rfl⟩ := Prod.mk.inj h
  have hids := mem_touchedIds jobs (Requeueable jobId) (ticket_requeued now) j
  refine hids.mpr ⟨row, hrow, hdead, ?_⟩
  intro id hid
  rw [hjob id hid, Jobs.id_of_row? hrow]

end Requeue

/-- Requeueing the list beside other processes. Take the dead jobs at some point, and any run from
there on in which each of them is named by a `requeue_dead`, alone or with all others, in any order
and among any steps of other processes. Then none is left behind: each was requeued, by this or by
another process, and at the end it either waits as the requeue has left it, with all its attempts
before it, or has been delivered since. So it is dead again only after another delivery. -/
theorem dead_letters_retried (h : Run (System.Step timeText) s es t)
    (hscript : ∀ row ∈ deadRows s.db.jobs, ∃ jobId now reply, (∀ id ∈ jobId, id = row.id) ∧
      System.Event.call ⟨.requeueDead jobId now, reply⟩ ∈ es) :
    ∀ row ∈ deadRows s.db.jobs, 1 ≤ revivals row.id (es.filterMap System.Event.queue?) ∧
      ((∃ now, t.db.jobs.row? row.id = some (requeued now row)) ∨
        1 ≤ deliveries row.id (es.filterMap System.Event.queue?)) := by
  intro row hrow
  obtain ⟨hfound, hdead⟩ := mem_deadRows.mp hrow
  obtain ⟨jobId, now, reply, hjob, hmem⟩ := hscript row hrow
  have hentry : (⟨.requeueDead jobId now, reply⟩ : Queue.Event ℚ) ∈
      es.filterMap System.Event.queue? := List.mem_filterMap.mpr ⟨_, hmem, rfl⟩
  have hqueue := run_queue h
  have hrevived : 1 ≤ revivals row.id (es.filterMap System.Event.queue?) := by
    obtain ⟨before, after, hcut⟩ := List.append_of_mem hentry
    rw [hcut] at hqueue ⊢
    obtain ⟨jobs, jobs', hbefore, hstep, -⟩ := hqueue.at_label
    rw [revivals, List.countP_append]
    rcases retried_of_run hbefore hfound hdead with ⟨-, hsame⟩ | ⟨hearlier, -⟩
    · -- nobody has been there before, so this `requeue_dead` moves it
      have hrequeues := requeues_of_step hstep hsame hdead hjob
      rw [List.countP_cons_of_pos (by simpa using hrequeues)]
      omega
    · exact Nat.le_add_right_of_le hearlier
  refine ⟨hrevived, ?_⟩
  rcases retried_of_run hqueue hfound hdead with ⟨hnone, -⟩ | ⟨-, hretried⟩
  · omega
  · exact hretried

/-- An operator requeues both jobs, and the first is delivered again before that. -/
def replayed : List Action :=
  [.call (.requeueDead (some 1) 100), .claim 4 ⟨"w1", 60, 1, 300, ["email", "report"]⟩ 101,
    .call (.requeueDead (some 2) 102)]

theorem dead_letters_retried_replayed :
    (1 ≤ revivals 1 ((runActions wholeSeconds afterDeaths replayed).1.filterMap
        System.Event.queue?) ∧
      1 ≤ revivals 2 ((runActions wholeSeconds afterDeaths replayed).1.filterMap
        System.Event.queue?)) ∧
    deliveries 1 ((runActions wholeSeconds afterDeaths replayed).1.filterMap
      System.Event.queue?) = 1 := by
  have hids : ∀ row ∈ deadRows afterDeaths.db.jobs, row.id = 1 ∨ row.id = 2 := by decide +kernel
  have hfirst : ∃ row ∈ deadRows afterDeaths.db.jobs, row.id = 1 := by decide +kernel
  have hsecond : ∃ row ∈ deadRows afterDeaths.db.jobs, row.id = 2 := by decide +kernel
  have hscript : ∀ row ∈ deadRows afterDeaths.db.jobs, ∃ jobId now reply,
      (∀ id ∈ jobId, id = row.id) ∧ System.Event.call ⟨.requeueDead jobId now, reply⟩ ∈
        (runActions wholeSeconds afterDeaths replayed).1 := by
    intro row hrow
    rcases hids row hrow with hid | hid
    · exact ⟨some 1, 100, .touched [1], by simp [hid], by decide +kernel⟩
    · exact ⟨some 2, 102, .touched [2], by simp [hid], by decide +kernel⟩
  have hretried := dead_letters_retried (run_runActions wholeSeconds afterDeaths replayed) hscript
  obtain ⟨first, hrow, hid⟩ := hfirst
  obtain ⟨second, hrow', hid'⟩ := hsecond
  exact ⟨⟨hid ▸ (hretried first hrow).1, hid' ▸ (hretried second hrow').1⟩, by decide +kernel⟩

/-! ### One by one or all at once -/

section Each

variable {τ : Type*}

/-- A dead job with one of some ids. -/
def DeadAmong (ids : List ℕ) (row : JobRow τ) : Prop := row.status = .dead ∧ row.id ∈ ids

instance (ids : List ℕ) (row : JobRow τ) : Decidable (DeadAmong ids row) :=
  inferInstanceAs (Decidable (_ ∧ _))

/-- The first of some ids and then the others are all of them, since a requeued job is not dead. -/
theorem requeue_first (jobs : Jobs τ) (id : ℕ) (rest : List ℕ) (now : τ) :
    (requeueDead jobs (some id) now).1.update (DeadAmong rest) (requeued now)
        (ticket_requeued now) =
      jobs.update (DeadAmong (id :: rest)) (requeued now) (ticket_requeued now) ∧
    (requeueDead jobs (some id) now).2 + (Table.touched (DeadAmong rest) (requeued now)
        (requeueDead jobs (some id) now).1.rows).length =
      (Table.touched (DeadAmong (id :: rest)) (requeued now) jobs.rows).length := by
  have hleaves : ∀ row : JobRow τ, Requeueable (some id) row →
      ¬ DeadAmong rest (requeued now row) := fun row _ hdead ↦ by cases hdead.1
  have hboth : ∀ row ∈ jobs.rows, (Requeueable (some id) row ∨ DeadAmong rest row) ↔
      DeadAmong (id :: rest) row := by
    intro row _
    simp only [Requeueable, DeadAmong, Option.mem_def, Option.some.injEq, forall_eq',
      List.mem_cons, ← and_or_left]
  constructor
  · refine Jobs.ext ?_ rfl
    exact (Table.updateWhere_updateWhere hleaves jobs.rows).trans (Table.updateWhere_congr hboth)
  · exact (Table.length_touched_add hleaves jobs.rows).trans
      (congrArg List.length (Table.touched_congr hboth))

end Each

/-- A session of `relay dead requeue`, one job after the other. -/
theorem session_requeue (timeText : ℚ → String) (repr : String → String) (now : ℚ)
    (ids : List ℕ) (db : Database) :
    ∃ counts : List ℕ,
      session timeText repr db (ids.map fun id ↦ (now, .deadRequeue (some id))) =
        ({ db with jobs := db.jobs.update (DeadAmong ids) (requeued now) (ticket_requeued now) },
          counts.map fun n ↦ .ok (.number n)) ∧
      counts.sum = (Table.touched (DeadAmong ids) (requeued now) db.jobs.rows).length := by
  induction ids generalizing db with
  | nil =>
    have hnone : ∀ row ∈ db.jobs.rows, ¬ DeadAmong [] row := fun row _ h ↦ by cases h.2
    refine ⟨[], ?_, by rw [Table.touched_eq_nil_iff.mpr hnone]; rfl⟩
    have hsame : db.jobs.update (DeadAmong []) (requeued now) (ticket_requeued now) = db.jobs :=
      Jobs.ext (Table.updateWhere_of_forall_not hnone) rfl
    rw [hsame]
    rfl
  | cons id rest ih =>
    obtain ⟨hjobs, hcount⟩ := requeue_first db.jobs id rest now
    obtain ⟨counts, hsession, hsum⟩ := ih { db with jobs := (requeueDead db.jobs (some id) now).1 }
    refine ⟨(requeueDead db.jobs (some id) now).2 :: counts, ?_, ?_⟩
    · rw [List.map_cons, session, main]
      simp only [hsession, hjobs, List.map_cons]
    · rw [List.sum_cons, hsum, hcount]

/-- One by one or all at once. At any one time, requeueing the jobs of `relay dead list` one after
the other, in any order and with any other ids between them, leaves the database as one
`relay dead requeue` does, and the numbers it prints add up to the one this prints. -/
theorem requeue_each (repr : String → String) (db : Database) (now : ℚ) {ids : List ℕ}
    (hlist : ∀ row ∈ deadRows db.jobs, row.id ∈ ids) :
    ∃ counts : List ℕ,
      session timeText repr db (ids.map fun id ↦ (now, .deadRequeue (some id))) =
        ((main timeText repr db now (.deadRequeue none)).1,
          counts.map fun n ↦ .ok (.number n)) ∧
      (main timeText repr db now (.deadRequeue none)).2 = .ok (.number counts.sum) := by
  obtain ⟨counts, hsession, hsum⟩ := session_requeue timeText repr now ids db
  have hall : ∀ row ∈ db.jobs.rows, DeadAmong ids row ↔ Requeueable none row := by
    intro row hrow
    constructor
    · exact fun h ↦ ⟨h.1, by simp⟩
    · intro h
      exact ⟨h.1, hlist row (mem_deadRows.mpr ⟨Jobs.row?_of_mem hrow, h.1⟩)⟩
  have hjobs : db.jobs.update (DeadAmong ids) (requeued now) (ticket_requeued now) =
      (requeueDead db.jobs none now).1 := Jobs.ext (Table.updateWhere_congr hall) rfl
  have hcount : counts.sum = (requeueDead db.jobs none now).2 :=
    hsum.trans (congrArg List.length (Table.touched_congr hall))
  refine ⟨counts, ?_, ?_⟩
  · rw [hsession, hjobs]
    rfl
  · rw [hcount]
    rfl

theorem requeue_each_twoDeaths : ∃ counts : List ℕ,
    session wholeSeconds id afterDeaths.db
        ([2, 7, 1].map fun id ↦ (100, .deadRequeue (some id))) =
      ((main wholeSeconds id afterDeaths.db 100 (.deadRequeue none)).1,
        counts.map fun n ↦ .ok (.number n)) ∧
    (main wholeSeconds id afterDeaths.db 100 (.deadRequeue none)).2 =
      .ok (.number counts.sum) :=
  requeue_each id afterDeaths.db 100 (by decide +kernel)

end Relay.Cli
