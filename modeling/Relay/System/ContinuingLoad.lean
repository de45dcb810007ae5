import Relay.System.LoopProgress
import Relay.Queue.Keys

/-!
# No starvation under continuing load

New jobs may keep coming forever, so a queue need not come to rest. A job is only ever passed over
for one that claims take first: a job of higher priority, or an older one of the same priority. The
budgets of these bound how often this happens, so once nothing puts off their end, all of them come
to an end, and the job with them (`loop_ends_job`), however many younger jobs and jobs of lower
priority there are. An `enqueue` only ever makes a younger job. So when from some point on nobody
requeues dead jobs or extends leases, or enqueues jobs with a priority above some bound, every job
with a priority from that bound on comes to an end, whenever it was enqueued
(`loop_ends_every_job`).
-/

set_option autoImplicit false
set_option relaxedAutoImplicit false

namespace Relay.System

open Foundations Store Queue Scheduler Workers

/-- The jobs that claims take before a job, and the job itself. -/
def UpTo (target : JobRow ℚ) (ticket : Ticket ℚ) : Prop :=
  target.priority < ticket.priority ∨
    (ticket.priority = target.priority ∧ ticket.id ≤ target.id)

instance (target : JobRow ℚ) : DecidablePred (UpTo target) :=
  fun _ ↦ inferInstanceAs (Decidable (_ ∨ _))

/-- The statement enqueues a job with a priority up to `bound`, or puts off the end of no job. -/
def Event.LoadsUpTo (bound : ℤ) : Queue.Event ℚ → Prop
  | ⟨.insert args, _⟩ => args.priority ≤ bound
  | entry => entry.renews = []

variable {timeText : ℚ → String} {worker : Worker} {args : RunArgs}
  {x : InfiniteRun (LoopStep timeText worker args)}

theorem upTo_of_claimBefore (target : JobRow ℚ) {a b : JobRow ℚ} (h : ClaimBefore a b)
    (hb : UpTo target b.ticket) : UpTo target a.ticket := by
  simp only [UpTo, JobRow.ticket, ClaimBefore] at *
  omega

/-- A row of an infinite run stays in the table, with the columns its producer fixed. -/
theorem ticket_of_loop {m k : ℕ} (hk : m ≤ k) {row : JobRow ℚ}
    (hrow : row ∈ (x.state m).1.1.db.jobs.rows) :
    ∃ row', (x.state k).1.1.db.jobs.row? row.id = some row' ∧ row'.ticket = row.ticket := by
  obtain ⟨fs, hrun⟩ := TimedStep.run (jobsRun x) hk
  exact ticket_of_run hrun (Jobs.row?_of_mem hrow)

/-- A worker whose loop keeps taking steps brings a job to an end, when from some point on nobody
puts off the end of it or of a job that claims take before it. -/
theorem loop_ends_job {history : List Event}
    (hstart : Run (Step timeText) (.start .empty) history (x.state 0).1.1)
    (hsteps : ∀ n, ∃ k, n ≤ k ∧ (x.label k).Own)
    (hclock : ∀ time, ∃ n, time < (x.state n).1.2) {m : ℕ} {target : JobRow ℚ}
    (hrow : target ∈ (x.state m).1.1.db.jobs.rows) (hkind : target.kind ∈ worker.handlers)
    (hquiet : ∃ n, ∀ k e, n ≤ k → x.label k = .other e → ∀ entry ∈ e.queue?,
      Quiet (UpTo target) entry (x.state (k + 1)).1.1.db.jobs) :
    ∃ n row, (row.status = .done ∨ row.status = .dead) ∧
      ∀ k, n ≤ k → (x.state k).1.1.db.jobs.row? target.id = some row := by
  obtain ⟨n, hothers⟩ := hquiet
  have hn : ∀ k, n ≤ k → ∀ entry ∈ (jobsRun x).label k,
      Quiet (UpTo target) entry ((jobsRun x).state (k + 1)).1 :=
    entries_of_others hothers fun k entry hnone row _ _ ↦ by simp [hnone]
  have hserved := served_of_loop hsteps hclock (fun _ _ ↦ upTo_of_claimBefore target) ⟨n, hn⟩
  obtain ⟨l, hend⟩ := jobs_come_to_end hserved (run_queue hstart)
  obtain ⟨row, hfound, hticket⟩ := ticket_of_loop (le_max_right l m) hrow
  have hpart : ∀ k, l ≤ k → row ∈ (((jobsRun x).state k).1.part (UpTo target)).rows := by
    have hfront : UpTo target row.ticket := hticket ▸ .inr ⟨rfl, le_rfl⟩
    intro k hk
    rw [(hend k hk).1, ← (hend (max l m) (le_max_left l m)).1]
    exact Jobs.mem_rows_part.mpr ⟨Jobs.mem_of_row? hfound, hfront⟩
  refine ⟨l, row, ((hend l le_rfl).2 row (hpart l le_rfl)).2 ?_, fun k hk ↦ ?_⟩
  · have hsame : row.kind = target.kind := congrArg Ticket.kind hticket
    exact hsame ▸ hkind
  · rw [← Jobs.id_of_row? hfound]
    exact Jobs.row?_of_mem (Jobs.mem_rows_part.mp (hpart k hk)).1

/-- Such load puts off the end of no job that claims take before a job with a higher priority that
is in the table. -/
theorem quiet_of_loadsUpTo {jobs jobs' : Jobs ℚ} {entry : Queue.Event ℚ} {bound : ℤ}
    (h : Queue.Step jobs entry jobs') (hload : Event.LoadsUpTo bound entry) {target : JobRow ℚ}
    (hbound : bound ≤ target.priority) (hold : target.id ≤ jobs.sequence) :
    Quiet (UpTo target) entry jobs' := by
  intro row hrow hfront hrenews
  obtain ⟨statement, reply⟩ := entry
  cases statement with
  | insert args =>
    obtain ⟨rfl, rfl⟩ := Prod.mk.inj h
    obtain ⟨hnew, hrow', -⟩ := insert_some (Option.mem_toList.mp hrenews)
    have hargs : row = args.row row.id :=
      Option.some.inj ((Jobs.row?_of_mem hrow).symm.trans hrow')
    have hpriority : row.priority = args.priority := congrArg JobRow.priority hargs
    have hle : args.priority ≤ bound := hload
    simp only [UpTo, JobRow.ticket] at hfront
    omega
  | _ =>
    have hnone : _ = [] := hload
    rw [hnone] at hrenews
    cases hrenews

/-- No job starves under continuing load. Let the loop of a worker keep taking steps among any other
processes, and the clock pass every time. When from some point on the other processes only enqueue
jobs with a priority up to `bound`, as often as they like, and do not requeue dead jobs or extend
leases, every job with a priority from `bound` on of a kind that the worker has a handler for is
done or dead at some point and stays so, whenever it was enqueued and however its handler ends. What
a handler itself writes to the database counts as a step of another process. -/
theorem loop_ends_every_job {history : List Event}
    (hstart : Run (Step timeText) (.start .empty) history (x.state 0).1.1)
    (hsteps : ∀ n, ∃ k, n ≤ k ∧ (x.label k).Own)
    (hclock : ∀ time, ∃ n, time < (x.state n).1.2) {bound : ℤ}
    (hload : ∃ n, ∀ k e, n ≤ k → x.label k = .other e → ∀ entry ∈ e.queue?,
      Event.LoadsUpTo bound entry) :
    ∀ m, ∀ target ∈ (x.state m).1.1.db.jobs.rows, bound ≤ target.priority →
      target.kind ∈ worker.handlers → ∃ n row, (row.status = .done ∨ row.status = .dead) ∧
        ∀ k, n ≤ k → (x.state k).1.1.db.jobs.row? target.id = some row := by
  intro m target hrow hbound hkind
  obtain ⟨n, hothers⟩ := hload
  refine loop_ends_job hstart hsteps hclock hrow hkind ⟨max n m, ?_⟩
  intro k e hk hlabel entry hentry
  obtain ⟨row, hfound, -⟩ := ticket_of_loop (le_of_max_le_right hk) hrow
  have hold : target.id ≤ (x.state k).1.1.db.jobs.sequence :=
    Jobs.id_of_row? hfound ▸ (x.state k).1.1.db.jobs.bounded row (Jobs.mem_of_row? hfound)
  have hqueue : (x.label k).queue? = some entry := by
    rw [hlabel]
    exact hentry
  exact quiet_of_loadsUpTo ((x.follows k).timed.2.2 entry hqueue).1
    (hothers k e (le_of_max_le_left hk) hlabel entry hentry) hbound hold

/-! ### A producer that never stops -/

/-- The producer of `busyRun` comes to its next job, when it makes one before every poll. -/
theorem produces_busyRun (n : ℕ) : ∃ k, n ≤ k ∧ ∃ i now id,
    (busyRun fun _ ↦ True).label k = .other (.enqueue i ⟨"email", "null", 0, 5, 0, none, now⟩ id) ∧
      ((busyRun fun _ ↦ True).state (k + 1)).1.2 = ((busyRun fun _ ↦ True).state k).1.2 + 1 := by
  refine (busyRun fun _ ↦ True).recurs stepsToProduce (own_busyRun fun _ ↦ True)
    (fun k ↦ ?_) n
  rcases (busyStep_busyRun (fun _ ↦ True) k).2 with
    ⟨i, now, id, he, -, -, hclock, -⟩ | ⟨-, hcloser⟩
  · exact .inl ⟨i, now, id, he, hclock⟩
  · exact .inr (.inl (hcloser trivial))

/-- It takes a second for each. -/
theorem clock_busyRun (time : ℚ) : ∃ n, time < ((busyRun fun _ ↦ True).state n).1.2 := by
  have hseconds : ∀ seconds : ℕ, ∃ n,
      (seconds : ℚ) ≤ ((busyRun fun _ ↦ True).state n).1.2 := by
    intro seconds
    induction seconds with
    | zero => exact ⟨0, by simp [busyRun, InfiniteRun.iterate, afterCrash]⟩
    | succ seconds ih =>
      obtain ⟨n, hn⟩ := ih
      obtain ⟨k, hk, _, _, _, -, hclock⟩ := produces_busyRun n
      have hmono : ((busyRun fun _ ↦ True).state n).1.2 ≤ ((busyRun fun _ ↦ True).state k).1.2 :=
        TimedStep.clock_le (x := jobsRun (busyRun fun _ ↦ True)) hk
      refine ⟨k + 1, ?_⟩
      rw [hclock]
      push_cast
      linarith
  obtain ⟨seconds, htime⟩ := exists_nat_gt time
  obtain ⟨n, hn⟩ := hseconds seconds
  exact ⟨n, htime.trans_le hn⟩

/-- The job of the worker that stopped comes to an end, while new ones of its kind and priority keep
coming. -/
theorem loop_ends_every_job_busyRun :
    (∀ n, ∃ k, n ≤ k ∧ ∃ i args id,
      (busyRun fun _ ↦ True).label k = .other (.enqueue i args id)) ∧
    ∃ n row, (row.status = .done ∨ row.status = .dead) ∧
      ∀ k, n ≤ k → ((busyRun fun _ ↦ True).state k).1.1.db.jobs.row? 1 = some row := by
  have hload : ∃ n, ∀ k e, n ≤ k → (busyRun fun _ ↦ True).label k = .other e →
      ∀ entry ∈ e.queue?, Event.LoadsUpTo 0 entry := by
    refine ⟨0, fun k e _ he ↦ ?_⟩
    rcases (busyStep_busyRun (fun _ ↦ True) k).2 with
      ⟨_, _, _, henqueue, -⟩ | ⟨hown, -⟩
    · obtain rfl := LoopEvent.other.inj (he.symm.trans henqueue)
      rintro _ ⟨⟩
      exact le_rfl
    · rw [he] at hown
      exact hown.elim
  have hfound : (afterCrash.1.1.db.jobs.row? 1).isSome := by decide +kernel
  have hjobs : ∀ row ∈ afterCrash.1.1.db.jobs.rows, 0 ≤ row.priority ∧ row.kind = "email" := by
    decide +kernel
  obtain ⟨target, htarget⟩ := Option.isSome_iff_exists.mp hfound
  have hrow := Jobs.mem_of_row? htarget
  refine ⟨fun n ↦ ?_, ?_⟩
  · obtain ⟨k, hk, i, now, id, henqueue, -⟩ := produces_busyRun n
    exact ⟨k, hk, i, _, id, henqueue⟩
  · rw [← Jobs.id_of_row? htarget]
    exact loop_ends_every_job (run_runActions wholeSeconds (.start .empty) crashedWorker)
      (own_busyRun _) clock_busyRun hload 0 target hrow (hjobs target hrow).1
      (by simp [(hjobs target hrow).2, secondWorker])

end Relay.System
