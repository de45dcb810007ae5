import Relay.System.IdempotentEnqueue

/-!
# Calls that nothing interrupts

`Queue.enqueue`, `Scheduler.tick` and `Workers.runOnce` are the methods when nothing comes between
their statements. Each is a run of the system in which every step belongs to one call
(`run_enqueue`, `run_tick`, `run_runOnce`), so what holds of all runs holds of them. An `enqueue`
and a `tick` so run never raise. For an `enqueue` it makes no difference what comes between its
statements (`enqueue_linearizable`).
-/

set_option autoImplicit false
set_option relaxedAutoImplicit false

namespace Relay.System

open Foundations Store Queue Scheduler Workers

variable (timeText : ℚ → String) {s : State}

/-- A step of call `i`. -/
abbrev OwnStep (i : ℕ) : State → Event → State → Prop :=
  Throughout (Step timeText) fun _ e _ ↦ e.task? = some i

/-! ### Producers -/

/-- The two statements of a producer's `enqueue` are the method, and return the id it returns. -/
theorem run_enqueue (args : EnqueueArgs ℚ) {i : ℕ} (hfresh : s.tasks i = none) :
    ∃ es t id, Run (OwnStep timeText i) s es t ∧ t.tasks i = some .finished ∧
      returnedIds es = [(args.idempotencyKey, id)] ∧ (enqueue s.db.jobs args).2 = .ok id ∧
      t.db = { s.db with jobs := (enqueue s.db.jobs args).1 } := by
  obtain ⟨id, henqueue, hinsert | ⟨hinsert, hfound⟩⟩ := enqueue_eq s.db.jobs args
  · have hstep : OwnStep timeText i s _ _ := ⟨.enqueue s i args hfresh, rfl⟩
    rw [hinsert] at hstep
    refine ⟨_, _, id, .single hstep, ?_, rfl, ?_, ?_⟩
    · simp [Task.ofInsert]
    · rw [henqueue]
    · rw [henqueue]
      rfl
  · have hstep : OwnStep timeText i s _ _ := ⟨.enqueue s i args hfresh, rfl⟩
    rw [hinsert] at hstep
    have hlookup : Step timeText _ _ _ := .lookup
      ((s.setJobs (insert s.db.jobs args).1).setTask i (.ofInsert args none)) i args
      (by simp [Task.ofInsert])
    rw [State.db_setTask, State.jobs_setJobs, hfound] at hlookup
    refine ⟨_, _, id, .cons hstep (.single ⟨hlookup, rfl⟩), ?_, rfl, ?_, ?_⟩
    · simp
    · rw [henqueue]
    · rw [henqueue]
      rfl

/-- A call that is over stays so. -/
theorem finished_of_run {t : State} {es : List Event} (h : Run (Step timeText) s es t) {i : ℕ}
    (htask : s.tasks i = some .finished) : t.tasks i = some .finished := by
  refine (run_task h i).invariant (fun task? ↦ task? = some .finished) ?_ htask
  intro before e after hbefore hstep
  cases hstep with
  | other e task? hi => exact hbefore
  | _ => simp at hbefore

/-- From its `INSERT` on, a call of `enqueue` is before its `SELECT` or over. -/
theorem enqueue_task_of_run {t : State} {es : List Event} (h : Run (Step timeText) s es t) {i : ℕ}
    {args : EnqueueArgs ℚ} (htask : s.tasks i = some (.enqueue args)) :
    t.tasks i = some (.enqueue args) ∨ t.tasks i = some .finished := by
  refine (run_task h i).invariant
    (fun task? ↦ task? = some (.enqueue args) ∨ task? = some .finished) ?_ (.inl htask)
  intro before e after hbefore hstep
  cases hstep with
  | lookup args id => exact .inr rfl
  | other e task? hi => exact hbefore
  | _ => simp at hbefore

/-- Enqueueing is linearizable. Whatever other processes do between the two statements of an
`enqueue`, it takes effect at its `INSERT`: the table it leaves there is the one an `enqueue` that
nothing interrupts would leave, and the id it returns, there or at its `SELECT`, is the one this
would return. -/
theorem enqueue_linearizable {t : State} {before after : List Event} {i : ℕ}
    {args : EnqueueArgs ℚ} {inserted : Option ℕ}
    (h : Run (Step timeText) s (before ++ .enqueue i args inserted :: after) t) :
    ∃ u u' id, Run (Step timeText) s before u ∧ Run (Step timeText) u' after t ∧
      enqueue u.db.jobs args = (u'.db.jobs, .ok id) ∧
      (∀ new, inserted = some new → new = id) ∧
      ∀ key found, .lookup i key found ∈ after →
        key = args.idempotencyKey ∧ found = some id := by
  obtain ⟨u, u', hbefore, hstep, hafter⟩ := h.at_label
  obtain ⟨id, henqueue, hreturns⟩ := enqueue_eq u.db.jobs args
  obtain ⟨hjobs, hreply⟩ := Prod.mk.inj (hstep.queue_step.2 _ rfl)
  change (insert u.db.jobs args).1 = u'.db.jobs at hjobs
  rw [Reply.inserted.inj hreply, hjobs] at hreturns
  refine ⟨u, u', id, hbefore, hafter, hjobs ▸ henqueue, fun new hnew ↦ ?_, ?_⟩
  · rcases hreturns with hsame | ⟨hnone, -⟩
    · exact Option.some.inj (hnew.symm.trans hsame)
    · rw [hnone] at hnew
      cases hnew
  · intro key found hlookup
    obtain ⟨first, last, rfl⟩ := List.append_of_mem hlookup
    obtain ⟨v, v', hfirst, hselect, -⟩ := hafter.at_label
    have hfound := Reply.selected.inj (Prod.mk.inj (hselect.queue_step.2 _ rfl)).2
    have hlooks := hselect.taskStep i
    have hstarted := hstep.taskStep i
    generalize hv : v.tasks i = looking, v'.tasks i = looked at hlooks
    generalize u.tasks i = fresh, hu' : u'.tasks i = started at hstarted
    cases hlooks with
    | other e task? hi => exact absurd rfl hi
    | lookup args' found =>
      cases hstarted with
      | other e task? hi => exact absurd rfl hi
      | inserted args new =>
        rw [finished_of_run timeText hfirst hu'] at hv
        cases hv
      | conflict args =>
        rcases enqueue_task_of_run timeText hfirst hu' with hsame | hover
        · obtain ⟨⟩ := hsame.symm.trans hv
          rcases hreturns with hnew | ⟨-, hkept⟩
          · cases hnew
          · exact ⟨rfl, hfound.symm.trans (selectKey_of_run (run_queue hfirst) hkept)⟩
        · rw [hover] at hv
          cases hv

/-- The second producer, whose `SELECT` comes last, returns what it would have at its `INSERT`. -/
theorem enqueue_linearizable_repeatedEnqueue : ∃ u u' : State,
    Run (Step wholeSeconds) (.start .empty)
        ((runActions wholeSeconds (.start .empty) repeatedEnqueue).1.take 2) u ∧
      enqueue u.db.jobs ⟨"email", "null", 0, 5, 0, some "k", 1⟩ = (u'.db.jobs, .ok 1) := by
  have hrun := run_runActions wholeSeconds (.start .empty) repeatedEnqueue
  have hcut : (runActions wholeSeconds (.start .empty) repeatedEnqueue).1 =
      (runActions wholeSeconds (.start .empty) repeatedEnqueue).1.take 2 ++
        .enqueue 1 ⟨"email", "null", 0, 5, 0, some "k", 1⟩ none ::
          (runActions wholeSeconds (.start .empty) repeatedEnqueue).1.drop 3 := by
    decide +kernel
  have hlookup : .lookup 1 (some "k") (some 1) ∈
      (runActions wholeSeconds (.start .empty) repeatedEnqueue).1.drop 3 := by
    decide +kernel
  rw [hcut] at hrun
  obtain ⟨u, u', id, hbefore, -, henqueue, -, hreturned⟩ := enqueue_linearizable _ hrun
  obtain ⟨-, hid⟩ := hreturned _ _ hlookup
  obtain rfl := Option.some.inj hid
  exact ⟨u, u', hbefore, henqueue⟩

/-! ### Ticks -/

/-- One round of the loop of a `tick`, from the `INSERT` to the `UPDATE`. -/
theorem run_tickRow {i : ℕ} {now : ℚ} {due rest : List ScheduleRow} {row : ScheduleRow}
    (htask : s.tasks i = some (.tick ⟨now, due, row :: rest, .insert⟩)) :
    ∃ es t, Run (OwnStep timeText i) s es t ∧
      t.tasks i = some (.tick ⟨now, due, rest, .insert⟩) ∧
      t.db = ⟨(enqueue s.db.jobs (slotArgs timeText now row)).1,
        (advance s.db.schedules now row).1⟩ := by
  obtain ⟨id, henqueue, hinsert | ⟨hinsert, hfound⟩⟩ :=
    enqueue_eq s.db.jobs (slotArgs timeText now row)
  · have hstep : OwnStep timeText i s _ _ := ⟨.tickInsert s i now due row rest htask, rfl⟩
    rw [hinsert] at hstep
    refine ⟨_, _, .cons hstep (.single ⟨.tickUpdate _ i now due row rest ?_, rfl⟩), ?_, ?_⟩
    · simp [Task.ofTickInsert]
    · simp
    · rw [henqueue]
      rfl
  · have hstep : OwnStep timeText i s _ _ := ⟨.tickInsert s i now due row rest htask, rfl⟩
    rw [hinsert] at hstep
    have hlookup : Step timeText _ _ _ := .tickLookup
      ((s.setJobs (insert s.db.jobs (slotArgs timeText now row)).1).setTask i
        (.ofTickInsert ⟨now, due, row :: rest, .insert⟩ none)) i now due row rest
      (by simp [Task.ofTickInsert])
    rw [State.db_setTask, State.jobs_setJobs, hfound] at hlookup
    refine ⟨_, _, .cons hstep (.cons ⟨hlookup, rfl⟩
      (.single ⟨.tickUpdate _ i now due row rest ?_, rfl⟩)), ?_, ?_⟩
    · simp [Task.ofTickLookup]
    · simp
    · rw [henqueue]
      rfl

/-- The loop of a `tick`, over the rows it has not finished. -/
theorem run_fireRows {i : ℕ} {now : ℚ} {due rest : List ScheduleRow}
    (htask : s.tasks i = some (.tick ⟨now, due, rest, .insert⟩)) :
    ∃ es t, Run (OwnStep timeText i) s es t ∧
      t.tasks i = some (.tick ⟨now, due, [], .insert⟩) ∧
      fireRows timeText now s.db rest = (t.db, .ok rest.length) := by
  induction rest generalizing s with
  | nil => exact ⟨[], s, .nil s, htask, rfl⟩
  | cons row rest ih =>
    obtain ⟨es, t, hrow, htask', hdb⟩ := run_tickRow timeText htask
    obtain ⟨fs, u, hrest, hfinished, hfire⟩ := ih htask'
    obtain ⟨id, henqueue, -⟩ := enqueue_eq s.db.jobs (slotArgs timeText now row)
    refine ⟨es ++ fs, u, hrow.append hrest, hfinished, ?_⟩
    rw [hdb, henqueue] at hfire
    simp only [fireRows, henqueue, hfire]
    rfl

/-- A `tick` that nothing interrupts, in whatever order it goes through the due rows, returns their
number. `tick` is the one in the order of the table. -/
theorem run_tick {now : ℚ} {due : List ScheduleRow} {i : ℕ} (hfresh : s.tasks i = none)
    (hdue : due.Perm (dueRows s.db.schedules now)) :
    ∃ es t, Run (OwnStep timeText i) s es t ∧
      t.tasks i = some (.tick ⟨now, due, [], .insert⟩) ∧
      fireRows timeText now s.db due = (t.db, .ok due.length) := by
  have hstep : OwnStep timeText i s _ _ := ⟨.tickSelect s i now due hfresh hdue, rfl⟩
  have htask : (s.setTask i (.tick ⟨now, due, due, .insert⟩)).tasks i =
      some (.tick ⟨now, due, due, .insert⟩) := by simp
  obtain ⟨es, t, hrun, hfinished, hfire⟩ := run_fireRows timeText htask
  exact ⟨_, t, .cons hstep hrun, hfinished, hfire⟩

/-! ### Workers -/

/-- The claim, the handler and the settle statement of a worker are `run_once`. -/
theorem run_runOnce (worker : Worker) (handler : JobRow ℚ → Outcome) (now : ℚ) {i : ℕ}
    (hfresh : s.tasks i = none) :
    ∃ es t, Run (OwnStep timeText i) s es t ∧ t.tasks i = some .finished ∧
      t.db = { s.db with jobs := (runOnce worker handler s.db.jobs now).1 } := by
  have hstep : OwnStep timeText i s _ _ := ⟨.claim s i worker now hfresh, rfl⟩
  unfold runOnce
  generalize claimJob worker s.db.jobs now = claimed at hstep ⊢
  obtain ⟨jobs, _ | job⟩ := claimed
  · refine ⟨_, _, .single hstep, ?_, rfl⟩
    simp [Task.ofClaim]
  · have hhandled : Step timeText _ _ _ := .handled
      ((s.setJobs jobs).setTask i (.ofClaim worker now (some job))) i worker job now (handler job)
      (by simp [Task.ofClaim])
    cases hkind : settleKind worker job (handler job) with
    | error error =>
      refine ⟨_, _, .cons hstep (.cons ⟨hhandled, rfl⟩
        (.single ⟨.raised _ i ⟨worker, job, now, some (handler job)⟩ _ _ ?_ rfl hkind, rfl⟩)),
        ?_, ?_⟩
      · simp
      · simp
      · simp only [hkind]
        rfl
    | ok kind =>
      refine ⟨_, _, .cons hstep (.cons ⟨hhandled, rfl⟩
        (.single ⟨.settle _ i ⟨worker, job, now, some (handler job)⟩ _ _ ?_ rfl hkind, rfl⟩)),
        ?_, ?_⟩
      · simp
      · simp
      · simp only [hkind]
        rfl

end Relay.System
