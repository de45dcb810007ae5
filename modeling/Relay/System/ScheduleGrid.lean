import Relay.System.CallRuns

/-!
# A schedule stays on its grid

A schedule that the first `add` of its name made is at a point of its grid, whatever ticks come with
whatever clocks, and it has left every slot there is a job for (`OnGrid`). So the slot of a tick
that finds it due has no job yet, and the tick makes exactly one and moves the schedule to the first
point of the grid after its time (`schedule_on_grid`).
-/

set_option autoImplicit false
set_option relaxedAutoImplicit false

namespace Relay.System

open Foundations Store Queue Scheduler Workers

/-- An `enqueue` of a producer under a slot key of a schedule. -/
def Call.TakesSlot (timeText : ℚ → String) (name : String) : Call → Prop
  | .statement (.insert args) => ∃ slot, args.idempotencyKey = some (slotKey timeText name slot)
  | _ => False

/-- The row is the schedule an `add` made, at a point of its grid, and the schedule has left every
slot there is a job for. -/
structure OnGrid (timeText : ℚ → String) (args : AddArgs) (db : Database) (row : ScheduleRow) :
    Prop where
  found : db.schedules.row? args.name = some row
  kind : row.kind = args.kind
  payload : row.payload = dumpsOrEmpty args.payload
  interval : row.intervalS = args.intervalS
  slot : row.nextRun ∈ Grid.points args.row.nextRun args.intervalS
  past : ∀ slot, HasKey db.jobs (slotKey timeText args.name slot) → slot < row.nextRun

/-- A tick makes one job for the schedule, under the key of the slot it was at, and moves it to the
first point of its grid after the time of the tick. -/
structure FiresOnce (timeText : ℚ → String) (now start : ℚ) (db later : Database)
    (row : ScheduleRow) : Prop where
  job : ∃ job, slotJobs row.name later.jobs = slotJobs row.name db.jobs ++ [job] ∧
    job.idempotencyKey = some (slotKey timeText row.name row.nextRun) ∧ job.kind = row.kind ∧
    job.payload = row.payload ∧ job.notBefore = now
  moved : ∃ slot, later.schedules.row? row.name = some (moveTo slot row) ∧
    IsLeast {point ∈ Grid.points start row.intervalS | now < point} slot ∧
    slot - row.intervalS ≤ now ∧ now < slot

variable {timeText : ℚ → String} {db later : Database} {call : Call} {calls : List Call}
  {name : String} {args : AddArgs} {row : ScheduleRow}

/-! ### One call -/

theorem scheduleAfter_none (h : ¬ call.Adds name) : call.scheduleAfter name none = none := by
  cases call with
  | statement statement => rfl
  | add args => exact if_neg h
  | remove name' => exact ite_self none
  | setEnabled name' enabled => exact ite_self none
  | tick now => rfl

/-- A call that does not replace a schedule fires it, or leaves it but for `enabled`. -/
theorem scheduleAfter_cases (h : ¬ call.Replaces name) (row : ScheduleRow) :
    (∃ now, call = .tick now ∧ Due now row ∧
      call.scheduleAfter name (some row) = some (fired now row)) ∨
    ((∀ now, call = .tick now → ¬ Due now row) ∧
      ∃ enabled, call.scheduleAfter name (some row) = some (enable enabled row)) := by
  cases call with
  | statement statement => exact .inr ⟨nofun, row.enabled, rfl⟩
  | add args => exact .inr ⟨nofun, row.enabled, if_neg h⟩
  | remove name' => exact .inr ⟨nofun, row.enabled, if_neg h⟩
  | setEnabled name' enabled =>
    refine .inr ⟨nofun, ?_⟩
    by_cases hname : name' = name
    · exact ⟨enabled, if_pos hname⟩
    · exact ⟨row.enabled, if_neg hname⟩
  | tick now =>
    by_cases hdue : Due now row
    · exact .inl ⟨now, rfl, hdue, congrArg some (if_pos hdue)⟩
    · refine .inr ⟨?_, row.enabled, congrArg some (if_neg hdue)⟩
      rintro _ ⟨⟩
      exact hdue

/-- The job of a slot comes from a tick that found the schedule due at that slot. -/
theorem CallStep.hasKey_cases (htext : IsTimeText timeText) (h : CallStep timeText db call later)
    (hkeys : ¬ call.TakesSlot timeText name) {slot : ℚ}
    (hkey : HasKey later.jobs (slotKey timeText name slot)) :
    HasKey db.jobs (slotKey timeText name slot) ∨ ∃ now, call = .tick now ∧
      ∃ row ∈ db.schedules.row? name, Due now row ∧ row.nextRun = slot := by
  cases h with
  | statement statement =>
    have hstep : Queue.Step db.jobs ⟨statement, (perform db.jobs statement).2⟩ _ := rfl
    rcases hstep.hasKey_cases hkey with hold | ⟨args, rfl, hargs⟩
    · exact .inl hold
    · exact absurd ⟨slot, hargs⟩ hkeys
  | add args => exact .inl hkey
  | remove name' => exact .inl hkey
  | setEnabled name' enabled => exact .inl hkey
  | tick now due hdue =>
    obtain ⟨-, rows, new, hperm, hrows, hnew⟩ :=
      CallStep.rows_of_tick htext.noAt (.tick db now due hdue)
    rcases (hasKey_iff_of_fired hrows hnew).mp hkey with hold | ⟨row, hrow, hsame⟩
    · exact .inl hold
    · obtain ⟨rfl, rfl⟩ := (slotKey_inj htext).mp hsame
      obtain ⟨hmem, hready⟩ := mem_dueRows.mp (List.mem_of_mem_filter (hperm.mem_iff.mp hrow))
      exact .inr ⟨now, rfl, row, Schedules.row?_of_mem hmem, hready, rfl⟩

theorem OnGrid.positive (h : OnGrid timeText args db row) : 0 < row.intervalS :=
  db.schedules.positive row (Schedules.mem_of_row? h.found)

/-- A call that does not replace the schedule keeps it on its grid, and never moves it back. -/
theorem OnGrid.step (htext : IsTimeText timeText) (h : OnGrid timeText args db row)
    (hcall : CallStep timeText db call later) (hkept : ¬ call.Replaces args.name)
    (hkeys : ¬ call.TakesSlot timeText args.name) :
    ∃ row', OnGrid timeText args later row' ∧ row.nextRun ≤ row'.nextRun := by
  have hafter := hcall.row? htext.noAt args.name
  rw [h.found] at hafter
  rcases scheduleAfter_cases hkept row with ⟨now, rfl, hdue, hfired⟩ | ⟨hidle, enabled, hsame⟩
  · have hlt : row.nextRun < (fired now row).nextRun := slot_lt_nextRun h.positive hdue.2
    refine ⟨fired now row, ⟨hafter.trans hfired, h.kind, h.payload, h.interval, ?_, ?_⟩, hlt.le⟩
    · have hnext := Grid.nextPoint_mem_points (h.interval ▸ h.positive) h.slot hdue.2
      rw [← h.interval] at hnext ⊢
      exact hnext
    · intro slot hkey
      rcases hcall.hasKey_cases htext hkeys hkey with hold | ⟨_, -, row', hrow', -, rfl⟩
      · exact (h.past slot hold).trans hlt
      · rw [← Option.mem_unique h.found hrow']
        exact hlt
  · refine ⟨enable enabled row, ⟨hafter.trans hsame, h.kind, h.payload, h.interval, h.slot, ?_⟩,
      le_rfl⟩
    intro slot hkey
    rcases hcall.hasKey_cases htext hkeys hkey with hold | ⟨now, hnow, row', hrow', hdue, -⟩
    · exact h.past slot hold
    · rw [← Option.mem_unique h.found hrow'] at hdue
      exact absurd hdue (hidle now hnow)

/-! ### Ticks -/

/-- The row is the schedule with its own name. -/
theorem OnGrid.found_name (h : OnGrid timeText args db row) :
    db.schedules.row? row.name = some row :=
  Schedules.row?_of_mem (Schedules.mem_of_row? h.found)

/-- A whole tick for which the schedule is due fires it once. -/
theorem OnGrid.fires (htext : IsTimeText timeText) (h : OnGrid timeText args db row) {now : ℚ}
    (hcall : CallStep timeText db (.tick now) later) (hdue : Due now row) :
    FiresOnce timeText now args.row.nextRun db later row where
  job := by
    have hname : row.name = args.name := Schedules.name_of_row? h.found
    have hfree : ¬ HasKey db.jobs (slotKey timeText row.name row.nextRun) := by
      intro hkey
      exact lt_irrefl _ (h.past _ (hname ▸ hkey))
    obtain ⟨new, hjobs, hnew⟩ := hcall.slotJobs_of_tick htext.noAt row.name
    rw [h.found_name, Option.filter_some_pos (by simpa using ⟨hdue, hfree⟩)] at hnew
    obtain ⟨job, rfl, hjob⟩ := List.map_eq_singleton_iff.mp hnew
    refine ⟨job, hjobs, congrArg JobRow.idempotencyKey hjob, congrArg JobRow.kind hjob, ?_, ?_⟩
    · have hpayload : job.payload = dumpsOrEmpty row.payload := congrArg JobRow.payload hjob
      rw [hpayload, h.payload, dumpsOrEmpty_idem]
    · have hnotBefore : job.notBefore = now + 0 := congrArg JobRow.notBefore hjob
      rw [hnotBefore, add_zero]
  moved := by
    have hafter := hcall.row? htext.noAt row.name
    rw [h.found_name] at hafter
    refine ⟨nextRun now row, hafter.trans (congrArg some (if_pos hdue)), ?_,
      nextRun_sub_le h.positive now, lt_nextRun h.positive now⟩
    exact Grid.isLeast_nextPoint h.positive (h.interval ▸ h.slot) hdue.2

/-- A whole tick for which the schedule is not due leaves it and its jobs alone. -/
theorem OnGrid.idle (htext : IsTimeText timeText) (h : OnGrid timeText args db row) {now : ℚ}
    (hcall : CallStep timeText db (.tick now) later) (hdue : ¬ Due now row) :
    later.schedules.row? row.name = some row ∧
      slotJobs row.name later.jobs = slotJobs row.name db.jobs := by
  have hafter := hcall.row? htext.noAt row.name
  obtain ⟨new, hjobs, hnew⟩ := hcall.slotJobs_of_tick htext.noAt row.name
  rw [h.found_name] at hafter
  rw [h.found_name, Option.filter_some_neg (by simp [hdue])] at hnew
  obtain rfl := List.map_eq_nil_iff.mp hnew
  exact ⟨hafter.trans (congrArg some (if_neg hdue)), hjobs.trans (List.append_nil _)⟩

/-! ### Runs -/

/-- Until the first `add` of its name there is no schedule, and no job under its slot keys. -/
theorem nothing_before_add (htext : IsTimeText timeText)
    (hrun : Run (CallStep timeText) .empty calls db)
    (hcalls : ∀ call ∈ calls, ¬ call.Adds name ∧ ¬ call.TakesSlot timeText name) :
    db.schedules.row? name = none ∧ ∀ slot, ¬ HasKey db.jobs (slotKey timeText name slot) := by
  refine hrun.invariant_of_labels _ (fun db ↦ db.schedules.row? name = none ∧
    ∀ slot, ¬ HasKey db.jobs (slotKey timeText name slot)) ?_ hcalls ⟨rfl, fun slot hkey ↦ ?_⟩
  · rintro db call later ⟨hadds, hkeys⟩ ⟨hrow, hfree⟩ hcall
    have hafter := hcall.row? htext.noAt name
    rw [hrow, scheduleAfter_none hadds] at hafter
    refine ⟨hafter, fun slot hkey ↦ ?_⟩
    rcases hcall.hasKey_cases htext hkeys hkey with hold | ⟨_, -, row, hfound, -⟩
    · exact hfree slot hold
    · rw [hrow] at hfound
      cases hfound
  · obtain ⟨job, hjob, -⟩ := hkey
    exact List.not_mem_nil hjob

theorem OnGrid.run (htext : IsTimeText timeText) (h : OnGrid timeText args db row)
    (hrun : Run (CallStep timeText) db calls later)
    (hcalls : ∀ call ∈ calls, ¬ call.Replaces args.name ∧ ¬ call.TakesSlot timeText args.name) :
    ∃ row', OnGrid timeText args later row' ∧ row.nextRun ≤ row'.nextRun := by
  refine hrun.invariant_of_labels _ (fun db ↦ ∃ row', OnGrid timeText args db row' ∧
    row.nextRun ≤ row'.nextRun) ?_ hcalls ⟨row, h, le_rfl⟩
  rintro db call later ⟨hkept, hkeys⟩ ⟨row', hgrid, hle⟩ hcall
  obtain ⟨row'', hgrid', hle'⟩ := hgrid.step htext hcall hkept hkeys
  exact ⟨row'', hgrid', hle.trans hle'⟩

/-- A schedule stays on its grid and fires once per due tick. In every run of whole calls in which
the schedule is made by the first `add` of its name and not replaced, and no producer enqueues under
its slot keys, it is at a point of the grid of its first run, and later never at an earlier one; a
tick fires it once if it is due, and leaves it and its jobs alone if it is not; and no tick of any
run of the system divides by zero. Assumed of the text of a time: it determines the time and
contains no `@`. -/
theorem schedule_on_grid (htext : IsTimeText timeText) {before after : List Call}
    (check : 0 < args.intervalS)
    (hrun : Run (CallStep timeText) .empty (before ++ .add args :: after) db)
    (hfirst : ∀ call ∈ before, ¬ call.Adds args.name ∧ ¬ call.TakesSlot timeText args.name)
    (hkept : ∀ call ∈ after, ¬ call.Replaces args.name ∧ ¬ call.TakesSlot timeText args.name) :
    (∃ row, db.schedules.row? args.name = some row ∧ row.kind = args.kind ∧
      row.payload = dumpsOrEmpty args.payload ∧ row.intervalS = args.intervalS ∧
      (∃ k : ℕ, row.nextRun = args.row.nextRun + k * args.intervalS) ∧
      (∀ calls later, Run (CallStep timeText) db calls later →
        (∀ call ∈ calls, ¬ call.Replaces args.name ∧ ¬ call.TakesSlot timeText args.name) →
        ∃ row', later.schedules.row? args.name = some row' ∧ row.nextRun ≤ row'.nextRun) ∧
      ∀ now later, CallStep timeText db (.tick now) later →
        (Due now row → FiresOnce timeText now args.row.nextRun db later row) ∧
        (¬ Due now row → later.schedules.row? row.name = some row ∧
          slotJobs row.name later.jobs = slotJobs row.name db.jobs)) ∧
    ∀ start es s, Run (Step timeText) (.start start) es s →
      ∀ i tick, s.tasks i = some (.tick tick) → ∀ row ∈ tick.due, row.intervalS ≠ 0 := by
  refine ⟨?_, fun start es s hsystem i tick htask row hrow ↦ ?_⟩
  · obtain ⟨old, new, hbefore, hadd, hafter⟩ := hrun.at_label
    obtain ⟨-, hfree⟩ := nothing_before_add htext hbefore hfirst
    have hmade : OnGrid timeText args new args.row := by
      have hfound := hadd.row? htext.noAt args.name
      rw [Call.scheduleAfter, if_pos ⟨rfl, check⟩] at hfound
      cases hadd with
      | add args =>
        exact ⟨hfound, rfl, rfl, rfl, Grid.start_mem_points _ _,
          fun slot hkey ↦ absurd hkey (hfree slot)⟩
    obtain ⟨row, hgrid, -⟩ := hmade.run htext hafter hkept
    refine ⟨row, hgrid.found, hgrid.kind, hgrid.payload, hgrid.interval, hgrid.slot,
      fun calls later hrun' hcalls ↦ ?_,
      fun now later htick ↦ ⟨hgrid.fires htext htick, hgrid.idle htext htick⟩⟩
    obtain ⟨row', hgrid', hle⟩ := hgrid.run htext hrun' hcalls
    exact ⟨row', hgrid'.found, hle⟩
  · exact ((tickSound_of_run hsystem i tick htask).due row hrow).1.ne'

/-- The schedule of the example, with its first run at 0. -/
def reportArgs : AddArgs := ⟨"report", "email", "null", 10, some 0, 0⟩

/-- A tick on the grid, a claim and an `enqueue`, a tick while the schedule is disabled, one whose
clock has gone back and one after a long time. -/
def reenabledCalls : List Call :=
  [.tick 10, .statement (.claim (some "w1") none 30 11),
    .statement (.insert ⟨"sms", "null", 0, 5, 0, none, 12⟩), .setEnabled "report" false, .tick 40,
    .setEnabled "report" true, .tick 3, .tick 75]

theorem schedule_on_grid_reenabledCalls :
    ∃ row, ((Call.remove "report" :: .add reportArgs :: reenabledCalls).foldl
        (doCall exactSeconds) .empty).schedules.row? "report" = some row ∧
      ∃ k : ℕ, row.nextRun = 0 + k * 10 := by
  have hrun := run_doCalls exactSeconds .empty
    ([.remove "report"] ++ .add reportArgs :: reenabledCalls)
  obtain ⟨⟨row, hfound, -, -, -, hgrid, -⟩, -⟩ := schedule_on_grid isTimeText_exactSeconds
    (by decide +kernel) hrun (by simp [Call.Adds, Call.TakesSlot])
    (by simp [reenabledCalls, Call.Replaces, Call.Adds, Call.TakesSlot])
  exact ⟨row, hfound, hgrid⟩

end Relay.System
