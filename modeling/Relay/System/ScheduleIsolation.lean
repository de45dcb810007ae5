import Relay.System.CallRuns

/-!
# Schedules do not interfere

A slot key tells for which schedule its job was made, whatever the names are, so a schedule and its
jobs are a machine of their own (`Call.actOn`): the calls of the scheduler act on it without regard
to the other schedules (`CallStep.view`), and a call that names another schedule does nothing to it.
Hence what one sees of a schedule in a run is what one sees without the calls that name others
(`schedules_isolated`).
-/

set_option autoImplicit false
set_option relaxedAutoImplicit false

namespace Relay.System

open Foundations Store Queue Scheduler Workers

/-- What a job says of the slot it was made for. -/
structure Firing where
  key : Option String
  kind : String
  payload : String
  notBefore : ℚ
deriving DecidableEq, Repr

def firing (job : JobRow ℚ) : Firing where
  key := job.idempotencyKey
  kind := job.kind
  payload := job.payload
  notBefore := job.notBefore

/-- One schedule and the jobs made for it, in their order. -/
structure ScheduleView where
  row? : Option ScheduleRow
  firings : List Firing
deriving DecidableEq, Repr

/-- What one sees of a schedule in a database. -/
def scheduleView (name : String) (db : Database) : ScheduleView :=
  ⟨db.schedules.row? name, (slotJobs name db.jobs).map firing⟩

/-- The schedule is due, and the slot it is at has no job. -/
def ScheduleView.Fires (timeText : ℚ → String) (now : ℚ) (view : ScheduleView)
    (row : ScheduleRow) : Prop :=
  Due now row ∧ some (slotKey timeText row.name row.nextRun) ∉ view.firings.map Firing.key

instance (timeText : ℚ → String) (now : ℚ) (view : ScheduleView) (row : ScheduleRow) :
    Decidable (view.Fires timeText now row) :=
  inferInstanceAs (Decidable (_ ∧ _ ∉ _))

/-- The jobs a call makes for a schedule. -/
def Call.firings (timeText : ℚ → String) (view : ScheduleView) : Call → List Firing
  | .tick now => (view.row?.filter fun row ↦ view.Fires timeText now row).toList.map fun row ↦
      firing (slotJob timeText now row)
  | _ => []

/-- A call of the scheduler on one schedule, as if there were no other. -/
def Call.actOn (timeText : ℚ → String) (name : String) (view : ScheduleView) (call : Call) :
    ScheduleView :=
  ⟨call.scheduleAfter name view.row?, view.firings ++ call.firings timeText view⟩

/-- A call of the scheduler. -/
def Call.OnSchedules : Call → Prop
  | .statement _ => False
  | _ => True

/-- The call is not an `add`, `remove` or `set_enabled` that names another schedule. -/
def Call.Concerns (name : String) : Call → Prop
  | .add args => args.name = name
  | .remove name' => name' = name
  | .setEnabled name' _ => name' = name
  | _ => True

instance (name : String) : DecidablePred (Call.Concerns name)
  | .statement _ | .tick _ => .isTrue trivial
  | .add args => inferInstanceAs (Decidable (args.name = name))
  | .remove name' | .setEnabled name' _ => inferInstanceAs (Decidable (name' = name))

/-- A call of the scheduler that nothing interrupts. -/
abbrev SchedulerStep (timeText : ℚ → String) : Database → Call → Database → Prop :=
  Throughout (CallStep timeText) fun _ call _ ↦ call.OnSchedules

variable {timeText : ℚ → String} {db later : Database} {call : Call} {calls : List Call}

/-! ### One schedule as a machine of its own -/

/-- Whether a slot of a schedule has a job is seen in its own jobs. -/
theorem hasKey_iff_mem_firings (noAt : ∀ time, '@' ∉ (timeText time).toList) {name : String}
    {slot : ℚ} : HasKey db.jobs (slotKey timeText name slot) ↔
      some (slotKey timeText name slot) ∈ (scheduleView name db).firings.map Firing.key := by
  simp only [scheduleView, List.map_map, List.mem_map, slotJobs, List.mem_filter, decide_eq_true_eq]
  constructor
  · rintro ⟨job, hjob, hkey⟩
    exact ⟨job, ⟨hjob, _, hkey, (isSlotKey_slotKey noAt).mpr rfl⟩, hkey⟩
  · rintro ⟨job, ⟨hjob, -⟩, hkey⟩
    exact ⟨job, hjob, hkey⟩

/-- What a call of the scheduler does to the jobs of one schedule. -/
theorem CallStep.firings (noAt : ∀ time, '@' ∉ (timeText time).toList)
    (h : CallStep timeText db call later) (honly : call.OnSchedules) (name : String) :
    (scheduleView name later).firings =
      (scheduleView name db).firings ++ call.firings timeText (scheduleView name db) := by
  cases call with
  | statement statement => exact honly.elim
  | tick now =>
    obtain ⟨new, hjobs, hnew⟩ := h.slotJobs_of_tick noAt name
    have hfires : (db.schedules.row? name).filter (fun row ↦
        Due now row ∧ ¬ HasKey db.jobs (slotKey timeText row.name row.nextRun)) =
        (db.schedules.row? name).filter fun row ↦
          (scheduleView name db).Fires timeText now row := by
      cases hrow : db.schedules.row? name with
      | none => rfl
      | some row =>
        obtain rfl := Schedules.name_of_row? hrow
        have hiff : Due now row ∧ ¬ HasKey db.jobs (slotKey timeText row.name row.nextRun) ↔
            (scheduleView row.name db).Fires timeText now row := by
          rw [ScheduleView.Fires, hasKey_iff_mem_firings noAt]
        rw [Option.filter_some, Option.filter_some, decide_eq_decide.mpr hiff]
    have hfirings : new.map firing = (new.map withoutId).map firing := by
      rw [List.map_map]
      rfl
    rw [scheduleView, hjobs, List.map_append, hfirings, hnew, hfires, List.map_map]
    rfl
  | _ =>
    cases h
    exact (List.append_nil _).symm

/-- A call of the scheduler does to what one sees of a schedule what it does to this schedule. -/
theorem CallStep.view (noAt : ∀ time, '@' ∉ (timeText time).toList)
    (h : CallStep timeText db call later) (honly : call.OnSchedules) (name : String) :
    scheduleView name later = call.actOn timeText name (scheduleView name db) :=
  congrArg₂ ScheduleView.mk (h.row? noAt name) (h.firings noAt honly name)

/-- A call that names another schedule does nothing to this one. -/
theorem actOn_of_not_concerns {name : String} (h : ¬ call.Concerns name) (view : ScheduleView) :
    call.actOn timeText name view = view := by
  have hnone : call.firings timeText view = [] := by
    cases call with
    | tick now => exact absurd trivial h
    | _ => rfl
  have hrow : call.scheduleAfter name view.row? = view.row? := by
    cases call with
    | add args => exact if_neg fun hadds ↦ h hadds.1
    | remove name' => exact if_neg h
    | setEnabled name' enabled => exact if_neg h
    | _ => exact absurd trivial h
  rw [Call.actOn, hnone, hrow, List.append_nil]

/-- What one sees of a schedule is what the calls that concern it do to it. -/
theorem view_of_run (noAt : ∀ time, '@' ∉ (timeText time).toList)
    (hrun : Run (SchedulerStep timeText) db calls later) (name : String) :
    scheduleView name later = (calls.filter fun call ↦ call.Concerns name).foldl
      (Call.actOn timeText name) (scheduleView name db) := by
  rw [hrun.foldl (scheduleView name) fun _ _ _ h ↦ h.1.view noAt h.2 name, List.foldl_filter]
  congr 1
  funext view call
  by_cases hconcerns : call.Concerns name
  · simp [hconcerns]
  · simp [hconcerns, actOn_of_not_concerns hconcerns]

/-! ### Runs -/

/-- Every sequence of calls of the scheduler is possible. -/
theorem run_schedulerCalls (timeText : ℚ → String) (db : Database)
    (honly : ∀ call ∈ calls, call.OnSchedules) :
    Run (SchedulerStep timeText) db calls (calls.foldl (doCall timeText) db) :=
  Run.throughout_label_iff.mpr ⟨run_doCalls timeText db calls, honly⟩

/-- Schedules do not interfere with each other. For every run of calls of the scheduler on an empty
database and every name, the calls that are left without the `add`, `remove` and `set_enabled` calls
that name other schedules can be run; and every run of them, whatever order its ticks go through the
schedules in, ends with the same schedule under the name and the same jobs for it in the same order.
The start of a run is a run, so this holds after every call. Assumed of the text of a time: it
contains no `@`. -/
theorem schedules_isolated (noAt : ∀ time, '@' ∉ (timeText time).toList)
    (hrun : Run (SchedulerStep timeText) .empty calls db) (name : String) :
    (∃ alone, Run (SchedulerStep timeText) .empty
      (calls.filter fun call ↦ call.Concerns name) alone) ∧
    ∀ alone, Run (SchedulerStep timeText) .empty
        (calls.filter fun call ↦ call.Concerns name) alone →
      alone.schedules.row? name = db.schedules.row? name ∧
      (slotJobs name alone.jobs).map firing = (slotJobs name db.jobs).map firing := by
  refine ⟨⟨_, run_schedulerCalls timeText .empty fun call hcall ↦ ?_⟩, fun alone halone ↦ ?_⟩
  · exact (Run.throughout_label_iff.mp hrun).2 call (List.mem_of_mem_filter hcall)
  · have hsame : scheduleView name alone = scheduleView name db := by
      rw [view_of_run noAt hrun, view_of_run noAt halone, List.filter_filter]
      simp only [Bool.and_self]
    exact ⟨congrArg ScheduleView.row? hsame, congrArg ScheduleView.firings hsame⟩

/-- Two schedules of which one has the key of a slot of the other as its name, and a rejected
`add`. -/
def nestedNames : List Call :=
  [.add ⟨"report", "email", "null", 10, some 0, 0⟩,
    .add ⟨"schedule:report@0.0", "sms", "null", 20, some 0, 0⟩,
    .add ⟨"report@", "dump", "null", 0, some 0, 0⟩, .tick 5, .remove "schedule:report@0.0",
    .setEnabled "report@" false, .tick 27]

theorem schedules_isolated_nestedNames :
    ((nestedNames.filter fun call ↦ call.Concerns "report").foldl (doCall exactSeconds)
      .empty).schedules.row? "report" =
    (nestedNames.foldl (doCall exactSeconds) .empty).schedules.row? "report" := by
  have hrun := run_schedulerCalls exactSeconds .empty
    (show ∀ call ∈ nestedNames, call.OnSchedules by simp [nestedNames, Call.OnSchedules])
  have halone := run_schedulerCalls exactSeconds .empty
    (show ∀ call ∈ nestedNames.filter fun call ↦ call.Concerns "report", call.OnSchedules from
      fun call hcall ↦ (Run.throughout_label_iff.mp hrun).2 call (List.mem_of_mem_filter hcall))
  exact ((schedules_isolated isTimeText_exactSeconds.noAt hrun "report").2 _ halone).1

end Relay.System
