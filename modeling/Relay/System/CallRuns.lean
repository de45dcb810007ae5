import Relay.System.SimultaneousTicks

/-!
# Runs of whole calls

`CallStep` is the system when no call is interrupted: a statement on the jobs table, or a method of
the scheduler from its first statement to its last. A tick goes through the due schedules in some
order, since its `SELECT` has none. Every run of whole calls is a run of the system
(`run_of_calls`). What a call does to one schedule is `CallStep.row?`, and what a tick does to its
jobs `CallStep.slotJobs_of_tick`: other schedules play no part in either.
-/

set_option autoImplicit false
set_option relaxedAutoImplicit false

namespace Relay.System

open Foundations Store Queue Scheduler Workers

/-- A call that nothing interrupts. A method of the queue or of a worker is one statement or more,
which may come with others between them. -/
inductive Call
  | statement (statement : Statement ℚ)
  | add (args : AddArgs)
  | remove (name : String)
  | setEnabled (name : String) (enabled : Bool)
  | tick (now : ℚ)
deriving DecidableEq

/-- One call on a database. -/
inductive CallStep (timeText : ℚ → String) : Database → Call → Database → Prop
  | statement (db : Database) (statement : Statement ℚ) :
      CallStep timeText db (.statement statement)
        { db with jobs := (perform db.jobs statement).1 }
  | add (db : Database) (args : AddArgs) :
      CallStep timeText db (.add args) { db with schedules := (add db.schedules args).1 }
  | remove (db : Database) (name : String) :
      CallStep timeText db (.remove name) { db with schedules := (remove db.schedules name).1 }
  | setEnabled (db : Database) (name : String) (enabled : Bool) :
      CallStep timeText db (.setEnabled name enabled)
        { db with schedules := (setEnabled db.schedules name enabled).1 }
  -- the `SELECT` has no `ORDER BY`
  | tick (db : Database) (now : ℚ) (due : List ScheduleRow)
      (hdue : due.Perm (dueRows db.schedules now)) :
      CallStep timeText db (.tick now) (fireRows timeText now db due).1

/-- A call, with the due schedules of a tick in the order of the table. -/
def doCall (timeText : ℚ → String) (db : Database) : Call → Database
  | .statement statement => { db with jobs := (perform db.jobs statement).1 }
  | .add args => { db with schedules := (add db.schedules args).1 }
  | .remove name => { db with schedules := (remove db.schedules name).1 }
  | .setEnabled name enabled => { db with schedules := (setEnabled db.schedules name enabled).1 }
  | .tick now => (tick timeText db now).1

/-- An `add` of a name that its check accepts. -/
def Call.Adds (name : String) : Call → Prop
  | .add args => args.name = name ∧ 0 < args.intervalS
  | _ => False

/-- An `add` of a name that its check accepts, or a `remove` of it. -/
def Call.Replaces (name : String) : Call → Prop
  | .remove name' => name' = name
  | call => call.Adds name

variable {timeText : ℚ → String} {db later : Database} {call : Call} {calls : List Call}

theorem callStep_doCall (timeText : ℚ → String) (db : Database) (call : Call) :
    CallStep timeText db call (doCall timeText db call) := by
  cases call with
  | statement statement => exact .statement db statement
  | add args => exact .add db args
  | remove name => exact .remove db name
  | setEnabled name enabled => exact .setEnabled db name enabled
  | tick now => exact .tick db now _ (.refl _)

/-- Every sequence of calls is possible. -/
theorem run_doCalls (timeText : ℚ → String) (db : Database) (calls : List Call) :
    Run (CallStep timeText) db calls (calls.foldl (doCall timeText) db) := by
  induction calls generalizing db with
  | nil => exact .nil db
  | cons call calls ih => exact .cons (callStep_doCall timeText db call) (ih _)

/-! ### The calls in the system -/

/-- The steps of one call leave the tasks of the others alone. -/
theorem tasks_of_own {s t : State} {es : List Event} {i : ℕ}
    (hrun : Run (OwnStep timeText i) s es t) {k : ℕ} (hk : k ≠ i) : t.tasks k = s.tasks k := by
  induction hrun with
  | nil => rfl
  | cons head _ ih =>
    obtain ⟨hstep, hown⟩ := head
    refine ih.trans (hstep.tasks_eq fun hother ↦ hk ?_)
    exact Option.some.inj (hother.symm.trans hown)

/-- A statement on the jobs table is a step of the system, but for the `SELECT` of an `enqueue`,
which changes nothing. -/
theorem run_of_statement {s : State} {i : ℕ} (hfresh : s.tasks i = none)
    (statement : Statement ℚ) : ∃ es t, Run (Step timeText) s es t ∧
      t.db = { s.db with jobs := (perform s.db.jobs statement).1 } ∧
      ∀ k, k ≠ i → t.tasks k = s.tasks k := by
  by_cases hsingle : Standalone statement
  · exact ⟨_, _, .single (.call s statement hsingle), rfl, fun _ _ ↦ rfl⟩
  · cases statement with
    | insert args =>
      have hstep : Step timeText s _ _ := .enqueue s i args hfresh
      refine ⟨_, _, .single hstep, rfl, fun k hk ↦ hstep.tasks_eq fun hsame ↦ ?_⟩
      exact hk (Option.some.inj hsame).symm
    | selectKey key => exact ⟨[], s, .nil s, rfl, fun _ _ ↦ rfl⟩
    | _ => exact absurd trivial hsingle

/-- A whole call is a run of the system, in which at most one new call makes steps. -/
theorem CallStep.run {s : State} {i : ℕ} (hfresh : s.tasks i = none)
    (h : CallStep timeText s.db call later) : ∃ es t, Run (Step timeText) s es t ∧
      t.db = later ∧ ∀ k, k ≠ i → t.tasks k = s.tasks k := by
  cases h with
  | statement statement => exact run_of_statement hfresh statement
  | add args => exact ⟨_, _, .single (.add s args), rfl, fun _ _ ↦ rfl⟩
  | remove name => exact ⟨_, _, .single (.remove s name), rfl, fun _ _ ↦ rfl⟩
  | setEnabled name enabled =>
    exact ⟨_, _, .single (.setEnabled s name enabled), rfl, fun _ _ ↦ rfl⟩
  | tick now due hdue =>
    obtain ⟨es, t, hrun, -, hfire⟩ := run_tick timeText hfresh hdue
    refine ⟨es, t, hrun.mono fun _ _ _ h ↦ h.1, ?_, fun k hk ↦ tasks_of_own hrun hk⟩
    exact (congrArg Prod.fst hfire).symm

/-- Every run of whole calls is a run of the system. -/
theorem run_of_calls (hrun : Run (CallStep timeText) db calls later) :
    ∃ es t, Run (Step timeText) (.start db) es t ∧ t.db = later := by
  have hstrong : ∃ es t, Run (Step timeText) (.start db) es t ∧ t.db = later ∧
      ∀ k, calls.length ≤ k → t.tasks k = none := by
    refine hrun.history (motive := fun calls later ↦ ∃ es t,
      Run (Step timeText) (.start db) es t ∧ t.db = later ∧
        ∀ k, calls.length ≤ k → t.tasks k = none) ⟨[], _, .nil _, rfl, fun _ _ ↦ rfl⟩ ?_
    rintro calls _ call later - ⟨es, s, hleft, rfl, hfresh⟩ hcall
    obtain ⟨fs, t, hright, hdb, htasks⟩ := hcall.run (hfresh calls.length le_rfl)
    refine ⟨es ++ fs, t, hleft.append hright, hdb, fun k hk ↦ ?_⟩
    rw [List.length_append, List.length_singleton] at hk
    rw [htasks k (by omega)]
    exact hfresh k (by omega)
  obtain ⟨es, t, h, hdb, -⟩ := hstrong
  exact ⟨es, t, h, hdb⟩

/-! ### One schedule -/

/-- The schedule with a name after a call, by what it was before. -/
def Call.scheduleAfter (name : String) : Call → Option ScheduleRow → Option ScheduleRow
  | .statement _, row? => row?
  | .add args, row? => if args.name = name ∧ 0 < args.intervalS then some args.row else row?
  | .remove name', row? => if name' = name then none else row?
  | .setEnabled name' enabled, row? => if name' = name then row?.map (enable enabled) else row?
  | .tick now, row? => row?.map fun row ↦ if Due now row then fired now row else row

/-- The jobs under the slot keys of a schedule, in the order in which they were inserted. -/
def slotJobs (name : String) (jobs : Jobs ℚ) : List (JobRow ℚ) :=
  jobs.rows.filter fun job ↦ ∃ key ∈ job.idempotencyKey, IsSlotKey name key

/-- A whole tick leaves the schedules fired, and adds the jobs whose keys were free. -/
theorem CallStep.rows_of_tick (noAt : ∀ time, '@' ∉ (timeText time).toList) {now : ℚ}
    (h : CallStep timeText db (.tick now) later) :
    later.schedules.rows = firedRows now db.schedules ∧
      ∃ (rows : List ScheduleRow) (new : List (JobRow ℚ)),
        rows.Perm (freeRows timeText now db) ∧ later.jobs.rows = db.jobs.rows ++ new ∧
        new.map withoutId = rows.map (slotJob timeText now) := by
  cases h with
  | tick now due hdue =>
    obtain ⟨es, s, hrun, hfinished, hfire⟩ := run_tickAlone timeText hdue
    have hprogress := progress_of_run hrun
    rw [hfire]
    exact ⟨hprogress.schedules_of_finished hfinished rfl,
      hprogress.jobs_of_finished noAt hfinished rfl⟩

/-- A call does to a schedule what it does to that schedule alone. -/
theorem CallStep.row? (noAt : ∀ time, '@' ∉ (timeText time).toList)
    (h : CallStep timeText db call later) (name : String) :
    later.schedules.row? name = call.scheduleAfter name (db.schedules.row? name) := by
  cases h with
  | statement statement => rfl
  | add args =>
    by_cases check : 0 < args.intervalS
    · simp only [row?_add check, Call.scheduleAfter, check, and_true, eq_comm (a := name)]
    · simp only [add_rejected check, Call.scheduleAfter, check, and_false, if_false]
  | remove name' => simp only [row?_remove, Call.scheduleAfter, eq_comm (a := name)]
  | setEnabled name' enabled =>
    simp only [row?_setEnabled, Call.scheduleAfter, eq_comm (a := name)]
  | tick now due hdue =>
    have hrows := (CallStep.rows_of_tick noAt (.tick db now due hdue)).1
    rw [Schedules.row?, hrows]
    exact Table.lookup_updateWhere (fun row ↦ name_moveTo _ row) name db.schedules.rows

/-- The schedule of a name is due and has no job at its slot, or there is nothing to fire for it. -/
theorem filter_freeRows (timeText : ℚ → String) (now : ℚ) (db : Database) (name : String) :
    ((freeRows timeText now db).filter fun row ↦ row.name = name) =
      ((db.schedules.row? name).filter fun row ↦
        Due now row ∧ ¬ HasKey db.jobs (slotKey timeText row.name row.nextRun)).toList := by
  rw [Option.toList_filter, Schedules.row?, ← Table.filter_key db.schedules.named, freeRows,
    dueRows]
  simp only [List.filter_filter]
  refine List.filter_congr fun row _ ↦ ?_
  rw [Bool.eq_iff_iff]
  simp only [Bool.and_eq_true, decide_eq_true_eq]
  tauto

theorem eq_toList_of_perm {α : Type*} {l : List α} {a? : Option α} (h : l.Perm a?.toList) :
    l = a?.toList := by
  cases a? with
  | none => exact h.eq_nil
  | some a => exact h.eq_singleton

/-- A whole tick adds the jobs of one schedule by what this schedule is. -/
theorem CallStep.slotJobs_of_tick (noAt : ∀ time, '@' ∉ (timeText time).toList) {now : ℚ}
    (h : CallStep timeText db (.tick now) later) (name : String) :
    ∃ new, slotJobs name later.jobs = slotJobs name db.jobs ++ new ∧
      new.map withoutId = ((db.schedules.row? name).filter fun row ↦
        Due now row ∧ ¬ HasKey db.jobs (slotKey timeText row.name row.nextRun)).toList.map
          (slotJob timeText now) := by
  obtain ⟨-, rows, new, hperm, hrows, hnew⟩ := h.rows_of_tick noAt
  let ofName (job : JobRow ℚ) : Bool := ∃ key ∈ job.idempotencyKey, IsSlotKey name key
  have hname : ∀ row, ofName (slotJob timeText now row) = decide (row.name = name) := by
    intro row
    have hkey : (∃ key ∈ (slotJob timeText now row).idempotencyKey, IsSlotKey name key) ↔
        IsSlotKey name (slotKey timeText row.name row.nextRun) := by
      simp [slotJob, withoutId, slotArgs, EnqueueArgs.row]
    exact decide_eq_decide.mpr (hkey.trans (isSlotKey_slotKey noAt))
  have hone : (rows.filter fun row ↦ row.name = name) = _ :=
    eq_toList_of_perm (filter_freeRows timeText now db name ▸ hperm.filter _)
  refine ⟨new.filter ofName, ?_, ?_⟩
  · rw [slotJobs, slotJobs, hrows, List.filter_append]
  · calc (new.filter ofName).map withoutId
        = (new.map withoutId).filter ofName := by rw [List.filter_map]; rfl
      _ = (rows.filter fun row ↦ row.name = name).map (slotJob timeText now) := by
        rw [hnew, List.filter_map]
        exact congrArg _ (List.filter_congr fun row _ ↦ hname row)
      _ = _ := by rw [hone]

end Relay.System
