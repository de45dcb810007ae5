import Relay.System.WholeCalls
import Relay.Scheduler.SlotKeys

/-!
# Simultaneous ticks

Any number of ticks that use one time, in any interleaving, do what one of them would do alone, as
soon as one of them has run to its end (`simultaneous_ticks`). What carries the proof is how far the
ticks have come together (`Progress`): every schedule that was due is where it was, or has been
moved to its next slot after its job was there; the new jobs are those of due schedules, each once;
and every tick has still to finish each of the schedules that are not moved yet.
-/

set_option autoImplicit false
set_option relaxedAutoImplicit false

namespace Relay.System

open Foundations Store Queue Scheduler Workers

/-- A step of a tick with a time. -/
def Event.TicksAt (now : ℚ) : Event → Prop
  | .tickSelect _ now' _ => now' = now
  | .tickInsert .. => True
  | .tickLookup .. => True
  | .tickUpdate .. => True
  | _ => False

/-- A step of the system that a tick with a time takes. -/
abbrev TickStep (timeText : ℚ → String) (now : ℚ) : State → Event → State → Prop :=
  Throughout (Step timeText) fun _ e _ ↦ e.TicksAt now

/-- The columns of a job without its id. -/
def withoutId (row : JobRow ℚ) : JobRow ℚ := { row with id := 0 }

/-- The job of a slot, up to its id. -/
def slotJob (timeText : ℚ → String) (now : ℚ) (row : ScheduleRow) : JobRow ℚ :=
  withoutId ((slotArgs timeText now row).row 0)

/-- A schedule after the tick that has fired it. -/
abbrev fired (now : ℚ) (row : ScheduleRow) : ScheduleRow := moveTo (nextRun now row) row

/-- Each schedule has been moved, after its job was there, or is as it was. -/
def SchedulesMoved (timeText : ℚ → String) (now : ℚ) (db later : Database) : Prop :=
  ∃ current : ScheduleRow → ScheduleRow,
    later.schedules.rows = db.schedules.rows.map current ∧ ∀ row ∈ db.schedules.rows,
      current row = row ∨ (Due now row ∧ current row = fired now row ∧
        HasKey later.jobs (slotKey timeText row.name row.nextRun))

/-- The new jobs are those of due schedules whose keys were free, each once. -/
def JobsFired (timeText : ℚ → String) (now : ℚ) (db later : Database) : Prop :=
  ∃ (rows : List ScheduleRow) (new : List (JobRow ℚ)), rows.Nodup ∧
    (∀ row ∈ rows, row ∈ dueRows db.schedules now ∧
      ¬ HasKey db.jobs (slotKey timeText row.name row.nextRun)) ∧
    later.jobs.rows = db.jobs.rows ++ new ∧ new.map withoutId = rows.map (slotJob timeText now)

/-- A tick has still to finish the due schedules that are not moved. -/
structure TickLeft (now : ℚ) (db later : Database) (tick : Tick) : Prop where
  time : tick.now = now
  rest : ∀ row ∈ tick.rest, row ∈ dueRows db.schedules now
  left : ∀ row ∈ dueRows db.schedules now, row ∈ tick.rest ∨ fired now row ∈ later.schedules.rows

/-- How far the ticks with a time have come together, from a database on. -/
structure Progress (timeText : ℚ → String) (now : ℚ) (db : Database) (s : State) : Prop where
  schedules : SchedulesMoved timeText now db s.db
  jobs : JobsFired timeText now db s.db
  ticks : ∀ i tick, s.tasks i = some (.tick tick) → TickLeft now db s.db tick

variable {timeText : ℚ → String} {now : ℚ} {db : Database} {s t : State} {e : Event}
  {es : List Event}

theorem mem_dueRows {schedules : Schedules} {row : ScheduleRow} :
    row ∈ dueRows schedules now ↔ row ∈ schedules.rows ∧ Due now row := by
  simp [dueRows]

/-- A schedule that has been fired is not due any more. -/
theorem not_due_fired {schedules : Schedules} {row : ScheduleRow} (hrow : row ∈ schedules.rows) :
    ¬ Due now (fired now row) := by
  rintro ⟨-, hle⟩
  exact absurd (lt_nextRun (schedules.positive row hrow) now) (not_lt.mpr hle)

/-- A row of the table is a schedule of the start, moved or not. -/
theorem Progress.row_cases (h : Progress timeText now db s) {cur : ScheduleRow}
    (hcur : cur ∈ s.db.schedules.rows) : ∃ row ∈ db.schedules.rows,
      cur = row ∨ (Due now row ∧ cur = fired now row ∧
        HasKey s.db.jobs (slotKey timeText row.name row.nextRun)) := by
  obtain ⟨current, hrows, hcases⟩ := h.schedules
  rw [hrows] at hcur
  obtain ⟨row, hrow, rfl⟩ := List.mem_map.mp hcur
  exact ⟨row, hrow, hcases row hrow⟩

/-- A schedule of the start is in the table, moved or not. -/
theorem Progress.mem_or_fired (h : Progress timeText now db s) {row : ScheduleRow}
    (hrow : row ∈ db.schedules.rows) :
    row ∈ s.db.schedules.rows ∨ fired now row ∈ s.db.schedules.rows := by
  obtain ⟨current, hrows, hcases⟩ := h.schedules
  rw [hrows]
  rcases hcases row hrow with hsame | ⟨-, hmoved, -⟩
  · exact .inl (List.mem_map.mpr ⟨row, hrow, hsame⟩)
  · exact .inr (List.mem_map.mpr ⟨row, hrow, hmoved⟩)

/-- Where a tick selects, it reads the due schedules that are not moved. -/
theorem Progress.mem_dueRows_iff (h : Progress timeText now db s) {row : ScheduleRow} :
    row ∈ dueRows s.db.schedules now ↔
      row ∈ dueRows db.schedules now ∧ row ∈ s.db.schedules.rows := by
  rw [mem_dueRows, mem_dueRows]
  constructor
  · rintro ⟨hmem, hdue⟩
    obtain ⟨old, hold, rfl | ⟨-, rfl, -⟩⟩ := h.row_cases hmem
    · exact ⟨⟨hold, hdue⟩, hmem⟩
    · exact absurd hdue (not_due_fired hold)
  · rintro ⟨⟨-, hdue⟩, hmem⟩
    exact ⟨hmem, hdue⟩

/-- Two schedules of one name are one schedule. -/
theorem eq_of_name {schedules : Schedules} {row row' : ScheduleRow} (hrow : row ∈ schedules.rows)
    (hrow' : row' ∈ schedules.rows) (hname : row.name = row'.name) : row = row' := by
  have h := Schedules.row?_of_mem hrow
  rw [hname, Schedules.row?_of_mem hrow'] at h
  exact (Option.some.inj h).symm

/-- The guard of an `UPDATE` does not match the schedule that was moved from its slot. -/
theorem not_sameSlot_fired {schedules : Schedules} {row row' : ScheduleRow}
    (hrow : row ∈ dueRows schedules now) (hrow' : row' ∈ schedules.rows) :
    ¬ SameSlot row (fired now row') := by
  rintro ⟨hname, hslot⟩
  obtain ⟨hmem, -, hle⟩ := mem_dueRows.mp hrow
  obtain rfl := eq_of_name hrow' hmem hname
  exact absurd hslot (slot_lt_nextRun (schedules.positive _ hmem) hle).ne'

/-! ### What each step does -/

/-- The row of an `UPDATE` was due, and its job is in the table. -/
theorem Progress.row_of_tickUpdate (hrun : Run (Step timeText) (.start db) es s)
    (h : Progress timeText now db s) {i : ℕ} {now' : ℚ} {due rest : List ScheduleRow}
    {row : ScheduleRow} (htask : s.tasks i = some (.tick ⟨now', due, row :: rest, .update⟩)) :
    now' = now ∧ row ∈ dueRows db.schedules now ∧
      HasKey s.db.jobs (slotKey timeText row.name row.nextRun) := by
  obtain ⟨rfl, hrest, -⟩ := h.ticks i _ htask
  have hkey := (tickSound_of_run hrun i _ htask).fired nofun row rfl
  exact ⟨rfl, hrest row (List.mem_cons_self ..), hkey⟩

/-- A schedule that was moved stays where it is. -/
theorem Progress.fired_step (hrun : Run (Step timeText) (.start db) es s)
    (h : Progress timeText now db s) (hstep : Step timeText s e t) (hticks : e.TicksAt now)
    {row : ScheduleRow} (hrow : row ∈ db.schedules.rows)
    (hfired : fired now row ∈ s.db.schedules.rows) : fired now row ∈ t.db.schedules.rows := by
  cases hstep with
  | tickSelect => exact hfired
  | tickInsert => exact hfired
  | tickLookup => exact hfired
  | tickUpdate i now' due updated rest htask =>
    obtain ⟨rfl, hdue, -⟩ := h.row_of_tickUpdate hrun htask
    exact Table.mem_updateWhere.mpr ⟨_, hfired, if_neg (not_sameSlot_fired hdue hrow)⟩
  | _ => exact hticks.elim

/-- After its `UPDATE` a schedule is moved. -/
theorem Progress.fired_of_tickUpdate (hrun : Run (Step timeText) (.start db) es s)
    (h : Progress timeText now db s) {i : ℕ} {row : ScheduleRow} {moved : Bool}
    (hstep : Step timeText s (.tickUpdate i now row moved) t) :
    fired now row ∈ t.db.schedules.rows := by
  obtain ⟨due, rest, htask, -⟩ := hstep.task_of_tickUpdate
  obtain ⟨-, hdue, -⟩ := h.row_of_tickUpdate hrun htask
  have hrow := (mem_dueRows.mp hdue).1
  rcases h.mem_or_fired hrow with hmem | hfired
  · cases hstep
    exact Table.mem_updateWhere.mpr ⟨row, hmem, if_pos ⟨rfl, rfl⟩⟩
  · exact h.fired_step hrun hstep trivial hrow hfired

theorem Progress.schedules_step (hrun : Run (Step timeText) (.start db) es s)
    (h : Progress timeText now db s) (hstep : Step timeText s e t) (hticks : e.TicksAt now) :
    SchedulesMoved timeText now db t.db := by
  obtain ⟨current, hrows, hcases⟩ := h.schedules
  have hlater : ∀ row ∈ db.schedules.rows, current row = row ∨ (Due now row ∧
      current row = fired now row ∧ HasKey t.db.jobs (slotKey timeText row.name row.nextRun)) := by
    intro row hrow
    rcases hcases row hrow with hsame | ⟨hdue, hmoved, hkey⟩
    · exact .inl hsame
    · exact .inr ⟨hdue, hmoved, hstep.hasKey hkey⟩
  cases hstep with
  | tickSelect => exact ⟨current, hrows, hlater⟩
  | tickInsert => exact ⟨current, hrows, hlater⟩
  | tickLookup => exact ⟨current, hrows, hlater⟩
  | tickUpdate i now' due updated rest htask =>
    obtain ⟨rfl, hdue, hkey⟩ := h.row_of_tickUpdate hrun htask
    obtain ⟨hupdated, hready⟩ := mem_dueRows.mp hdue
    refine ⟨fun row ↦ if SameSlot updated (current row) then
      moveTo (nextRun now' updated) (current row) else current row, ?_, fun row hrow ↦ ?_⟩
    · change Table.updateWhere _ _ s.db.schedules.rows = _
      rw [hrows, Table.updateWhere, List.map_map]
      rfl
    · dsimp only
      split_ifs with hslot
      · rcases hcases row hrow with hsame | ⟨-, hmoved, -⟩
        · rw [hsame] at hslot ⊢
          obtain rfl := eq_of_name hrow hupdated hslot.1
          exact .inr ⟨hready, rfl, hkey⟩
        · rw [hmoved] at hslot
          exact absurd hslot (not_sameSlot_fired hdue hrow)
      · exact hlater row hrow
  | _ => exact hticks.elim

/-- The keys in the table are those of the start and those of the schedules that were fired. -/
theorem hasKey_iff_of_fired {later : Database} {rows : List ScheduleRow} {new : List (JobRow ℚ)}
    (hrows : later.jobs.rows = db.jobs.rows ++ new)
    (hnew : new.map withoutId = rows.map (slotJob timeText now)) {key : String} :
    HasKey later.jobs key ↔
      HasKey db.jobs key ∨ ∃ row ∈ rows, slotKey timeText row.name row.nextRun = key := by
  have hkeys := congrArg (List.map JobRow.idempotencyKey) hnew
  rw [List.map_map, List.map_map] at hkeys
  have hmem : (∃ job ∈ new, job.idempotencyKey = some key) ↔
      ∃ row ∈ rows, slotKey timeText row.name row.nextRun = key := by
    have h := congrArg (some key ∈ ·) hkeys
    simpa [List.mem_map, withoutId, slotJob, slotArgs, EnqueueArgs.row] using h
  rw [← hmem]
  simp only [HasKey, hrows, List.mem_append]
  constructor
  · rintro ⟨job, hjob | hjob, hkey⟩
    · exact .inl ⟨job, hjob, hkey⟩
    · exact .inr ⟨job, hjob, hkey⟩
  · rintro (⟨job, hjob, hkey⟩ | ⟨job, hjob, hkey⟩)
    · exact ⟨job, .inl hjob, hkey⟩
    · exact ⟨job, .inr hjob, hkey⟩

theorem Progress.jobs_step (h : Progress timeText now db s) (hstep : Step timeText s e t)
    (hticks : e.TicksAt now) : JobsFired timeText now db t.db := by
  obtain ⟨rows, new, hnodup, hfired, hrows, hnew⟩ := h.jobs
  cases hstep with
  | tickSelect => exact ⟨rows, new, hnodup, hfired, hrows, hnew⟩
  | tickLookup => exact ⟨rows, new, hnodup, hfired, hrows, hnew⟩
  | tickUpdate => exact ⟨rows, new, hnodup, hfired, hrows, hnew⟩
  | tickInsert i now' due row rest htask =>
    obtain ⟨rfl, hdue, -⟩ := h.ticks i _ htask
    rcases insert_cases s.db.jobs (slotArgs timeText now' row) with
      ⟨-, hinsert⟩ | ⟨-, jobs', hinsert, -, -, -⟩
    · refine ⟨rows, new, hnodup, hfired, ?_, hnew⟩
      rw [State.db_setTask, State.jobs_setJobs, hinsert]
      exact hrows
    · obtain ⟨-, -, hfree, hadded⟩ := insert_some (congrArg Prod.snd hinsert)
      have hfree := (hasKey_iff_of_fired hrows hnew).not.mp (hfree _ rfl)
      obtain ⟨hfree, hother⟩ := not_or.mp hfree
      refine ⟨rows ++ [row], new ++ [(slotArgs timeText now' row).row (s.db.jobs.sequence + 1)],
        ?_, ?_, ?_, ?_⟩
      · refine List.nodup_append.mpr ⟨hnodup, List.nodup_singleton row, ?_⟩
        rintro first hfirst last hlast rfl
        obtain rfl := List.mem_singleton.mp hlast
        exact hother ⟨_, hfirst, rfl⟩
      · intro row' hrow'
        rcases List.mem_append.mp hrow' with hrow' | hrow'
        · exact hfired row' hrow'
        · rw [List.mem_singleton.mp hrow']
          exact ⟨hdue row (List.mem_cons_self ..), hfree⟩
      · rw [State.db_setTask, State.jobs_setJobs, hadded, hrows, List.append_assoc]
      · rw [List.map_append, List.map_append, hnew]
        rfl
  | _ => exact hticks.elim

/-- What a tick reads is due, and is all that is due. -/
theorem Step.mem_due_iff {i : ℕ} {due : List ScheduleRow}
    (h : Step timeText s (.tickSelect i now due) t) {row : ScheduleRow} :
    row ∈ due ↔ row ∈ dueRows s.db.schedules now := by
  cases h with
  | tickSelect _ _ _ _ hdue => exact hdue.mem_iff

theorem Progress.ticks_step (hrun : Run (Step timeText) (.start db) es s)
    (h : Progress timeText now db s) (hstep : Step timeText s e t) (hticks : e.TicksAt now) :
    ∀ i tick, t.tasks i = some (.tick tick) → TickLeft now db t.db tick := by
  intro i tick htask
  have hmoved : ∀ row ∈ dueRows db.schedules now, fired now row ∈ s.db.schedules.rows →
      fired now row ∈ t.db.schedules.rows :=
    fun row hrow ↦ h.fired_step hrun hstep hticks (mem_dueRows.mp hrow).1
  have htaskStep := hstep.taskStep i
  have hbefore := h.ticks i
  rw [htask] at htaskStep
  generalize s.tasks i = before at htaskStep hbefore
  -- a tick that stays at its row has as much to finish as before
  have hstays : ∀ tick', before = some (.tick tick') → tick'.now = tick.now →
      tick'.rest = tick.rest → TickLeft now db t.db tick := by
    intro tick' hsome hnow hrest
    obtain ⟨htime, hdue, hleft⟩ := hbefore tick' hsome
    rw [hrest] at hdue hleft
    exact ⟨hnow ▸ htime, hdue, fun row hrow ↦ (hleft row hrow).imp_right (hmoved row hrow)⟩
  cases htaskStep with
  | tickSelect now' due =>
    obtain rfl : now' = now := hticks
    refine ⟨rfl, fun row hrow ↦ ?_, fun row hrow ↦ ?_⟩
    · exact (h.mem_dueRows_iff.mp (hstep.mem_due_iff.mp hrow)).1
    · rcases h.mem_or_fired (mem_dueRows.mp hrow).1 with hmem | hfired
      · exact .inl (hstep.mem_due_iff.mpr (h.mem_dueRows_iff.mpr ⟨hrow, hmem⟩))
      · exact .inr (hmoved row hrow hfired)
  | tickInserted now' due row rest id => exact hstays _ rfl rfl rfl
  | tickConflict now' due row rest => exact hstays _ rfl rfl rfl
  | tickFound now' due row rest id => exact hstays _ rfl rfl rfl
  | tickUpdate now' due row rest moved =>
    obtain ⟨rfl, hdue, hleft⟩ := hbefore _ rfl
    refine ⟨rfl, fun other hother ↦ hdue other (List.mem_cons_of_mem _ hother),
      fun other hother ↦ ?_⟩
    rcases hleft other hother with hrest | hfired
    · rcases List.mem_cons.mp hrest with rfl | hrest
      · exact .inr (h.fired_of_tickUpdate hrun hstep)
      · exact .inl hrest
    · exact .inr (hmoved other hother hfired)
  | other _ _ _ => exact hstays tick rfl rfl rfl

/-! ### Runs of simultaneous ticks -/

theorem run_of_tickSteps (hrun : Run (TickStep timeText now) (.start db) es s) :
    Run (Step timeText) (.start db) es s := hrun.mono fun _ _ _ h ↦ h.1

theorem progress_of_run (hrun : Run (TickStep timeText now) (.start db) es s) :
    Progress timeText now db s := by
  refine hrun.history (motive := fun _ s ↦ Progress timeText now db s) ?_ ?_
  · refine ⟨⟨id, (List.map_id _).symm, fun _ _ ↦ .inl rfl⟩, ?_, fun _ _ h ↦ nomatch h⟩
    exact ⟨[], [], .nil, by simp, (List.append_nil _).symm, rfl⟩
  · rintro es s e t hleft hprogress ⟨hstep, hticks⟩
    have hrun := run_of_tickSteps hleft
    exact ⟨hprogress.schedules_step hrun hstep hticks, hprogress.jobs_step hstep hticks,
      hprogress.ticks_step hrun hstep hticks⟩

/-! ### When one tick is finished -/

/-- The rows that are left when all that were due are fired. -/
def firedRows (now : ℚ) (schedules : Schedules) : List ScheduleRow :=
  Table.updateWhere (Due now) (fired now) schedules.rows

/-- The due schedules whose jobs were not there yet. -/
def freeRows (timeText : ℚ → String) (now : ℚ) (db : Database) : List ScheduleRow :=
  (dueRows db.schedules now).filter fun row ↦
    ¬ HasKey db.jobs (slotKey timeText row.name row.nextRun)

section Finished

variable {i : ℕ} {tick : Tick}

theorem Progress.fired_of_finished (h : Progress timeText now db s)
    (htask : s.tasks i = some (.tick tick)) (hrest : tick.rest = []) {row : ScheduleRow}
    (hrow : row ∈ dueRows db.schedules now) : fired now row ∈ s.db.schedules.rows := by
  rcases (h.ticks i tick htask).left row hrow with hmem | hfired
  · rw [hrest] at hmem
    cases hmem
  · exact hfired

theorem Progress.schedules_of_finished (h : Progress timeText now db s)
    (htask : s.tasks i = some (.tick tick)) (hrest : tick.rest = []) :
    s.db.schedules.rows = firedRows now db.schedules := by
  obtain ⟨current, hrows, hcases⟩ := h.schedules
  rw [hrows]
  refine List.map_congr_left fun row hrow ↦ ?_
  have hname : (current row).name = row.name := by
    rcases hcases row hrow with hsame | ⟨-, hmoved, -⟩
    · rw [hsame]
    · rw [hmoved, name_moveTo]
  have hcurrent : current row ∈ s.db.schedules.rows := hrows ▸ List.mem_map_of_mem hrow
  by_cases hdue : Due now row
  · rw [if_pos hdue]
    exact eq_of_name hcurrent (h.fired_of_finished htask hrest (mem_dueRows.mpr ⟨hrow, hdue⟩)) hname
  · rw [if_neg hdue]
    rcases hcases row hrow with hsame | ⟨hdue', -, -⟩
    · exact hsame
    · exact absurd hdue' hdue

/-- The job of every schedule that was due is in the table. -/
theorem Progress.hasKey_of_finished (h : Progress timeText now db s)
    (htask : s.tasks i = some (.tick tick)) (hrest : tick.rest = []) {row : ScheduleRow}
    (hrow : row ∈ dueRows db.schedules now) :
    HasKey s.db.jobs (slotKey timeText row.name row.nextRun) := by
  obtain ⟨hmem, hdue⟩ := mem_dueRows.mp hrow
  obtain ⟨old, hold, hsame | ⟨-, hsame, hkey⟩⟩ :=
    h.row_cases (h.fired_of_finished htask hrest hrow)
  · have hname := congrArg ScheduleRow.name hsame
    obtain rfl := eq_of_name hmem hold hname
    exact absurd hdue (hsame ▸ not_due_fired hmem)
  · have hname := congrArg ScheduleRow.name hsame
    obtain rfl := eq_of_name hmem hold hname
    exact hkey

theorem nodup_dueRows (schedules : Schedules) (now : ℚ) : (dueRows schedules now).Nodup :=
  (schedules.named.imp fun hne heq ↦ hne (congrArg ScheduleRow.name heq)).filter _

/-- The new jobs are those of the due schedules whose keys were free, in some order. -/
theorem Progress.jobs_of_finished (noAt : ∀ time, '@' ∉ (timeText time).toList)
    (h : Progress timeText now db s) (htask : s.tasks i = some (.tick tick))
    (hrest : tick.rest = []) :
    ∃ (rows : List ScheduleRow) (new : List (JobRow ℚ)), rows.Perm (freeRows timeText now db) ∧
      s.db.jobs.rows = db.jobs.rows ++ new ∧
      new.map withoutId = rows.map (slotJob timeText now) := by
  obtain ⟨rows, new, hnodup, hfired, hrows, hnew⟩ := h.jobs
  refine ⟨rows, new, ?_, hrows, hnew⟩
  refine (List.perm_ext_iff_of_nodup hnodup ((nodup_dueRows _ _).filter _)).mpr fun row ↦ ?_
  rw [List.mem_filter, decide_eq_true_eq]
  refine ⟨hfired row, fun ⟨hdue, hfree⟩ ↦ ?_⟩
  have hkey := h.hasKey_of_finished htask hrest hdue
  rcases (hasKey_iff_of_fired hrows hnew).mp hkey with hold | ⟨other, hother, hsame⟩
  · exact absurd hold hfree
  · have hname := (slotKey_cut noAt hsame).1
    have heq := eq_of_name (mem_dueRows.mp (hfired other hother).1).1 (mem_dueRows.mp hdue).1 hname
    exact heq ▸ hother

/-- So up to ids and order the jobs are determined by the start. -/
theorem Progress.jobs_perm (noAt : ∀ time, '@' ∉ (timeText time).toList)
    (h : Progress timeText now db s) (htask : s.tasks i = some (.tick tick))
    (hrest : tick.rest = []) :
    (s.db.jobs.rows.map withoutId).Perm
      (db.jobs.rows.map withoutId ++ (freeRows timeText now db).map (slotJob timeText now)) := by
  obtain ⟨rows, new, hperm, hrows, hnew⟩ := h.jobs_of_finished noAt htask hrest
  rw [hrows, List.map_append, hnew]
  exact (hperm.map _).append_left _

/-- Nothing is due any more. -/
theorem Progress.tick_again (h : Progress timeText now db s)
    (htask : s.tasks i = some (.tick tick)) (hrest : tick.rest = []) :
    Scheduler.tick timeText s.db now = (s.db, .ok 0) := by
  have hnone : dueRows s.db.schedules now = [] := by
    refine List.eq_nil_iff_forall_not_mem.mpr fun row hrow ↦ ?_
    obtain ⟨hdue, hmem⟩ := h.mem_dueRows_iff.mp hrow
    obtain ⟨hold, hready⟩ := mem_dueRows.mp hdue
    have hsame := eq_of_name hmem (h.fired_of_finished htask hrest hdue) rfl
    exact absurd hready (hsame ▸ not_due_fired hold)
  rw [Scheduler.tick, hnone]
  rfl

end Finished

/-! ### The tick that nothing interrupts -/

/-- Once a call is a tick with a time, its steps are steps of a tick with this time. -/
theorem tickSteps_of_own {i : ℕ} (hrun : Run (OwnStep timeText i) s es t)
    (htask : (∃ tick, s.tasks i = some (.tick tick) ∧ tick.now = now) ∨
      s.tasks i = some .finished) : Run (TickStep timeText now) s es t := by
  induction hrun with
  | nil s => exact .nil s
  | @cons s t u e es head _ ih =>
    obtain ⟨hstep, hown⟩ := head
    have htaskStep := hstep.taskStep i
    generalize hbefore : s.tasks i = before at htaskStep htask
    generalize hafter : t.tasks i = after at htaskStep ih
    have hnow : ∀ tick, before = some (.tick tick) → tick.now = now := by
      rintro tick rfl
      rcases htask with ⟨tick', hsome, hnow⟩ | hfinished
      · cases hsome
        exact hnow
      · cases hfinished
    cases htaskStep with
    | tickInserted now' due row rest id =>
      exact .cons ⟨hstep, trivial⟩ (ih (.inl ⟨_, rfl, hnow ⟨now', due, row :: rest, .insert⟩ rfl⟩))
    | tickConflict now' due row rest =>
      exact .cons ⟨hstep, trivial⟩ (ih (.inl ⟨_, rfl, hnow ⟨now', due, row :: rest, .insert⟩ rfl⟩))
    | tickFound now' due row rest id =>
      exact .cons ⟨hstep, trivial⟩ (ih (.inl ⟨_, rfl, hnow ⟨now', due, row :: rest, .select⟩ rfl⟩))
    | tickMissing now' due row rest => exact .cons ⟨hstep, trivial⟩ (ih (.inr rfl))
    | tickUpdate now' due row rest moved =>
      exact .cons ⟨hstep, trivial⟩ (ih (.inl ⟨_, rfl, hnow ⟨now', due, row :: rest, .update⟩ rfl⟩))
    | other _ _ hi => exact absurd hown hi
    | _ => rcases htask with ⟨_, hsome, -⟩ | hfinished <;> simp_all

/-- A tick that nothing interrupts is a run of ticks with its time, and runs to its end. -/
theorem run_tickAlone (timeText : ℚ → String) {now : ℚ} {db : Database} {due : List ScheduleRow}
    (hdue : due.Perm (dueRows db.schedules now)) :
    ∃ es s, Run (TickStep timeText now) (.start db) es s ∧
      s.tasks 0 = some (.tick ⟨now, due, [], .insert⟩) ∧
      fireRows timeText now db due = (s.db, .ok due.length) := by
  have hselect : TickStep timeText now (.start db) _ _ :=
    ⟨.tickSelect (.start db) 0 now due rfl hdue, rfl⟩
  have htask : ((State.start db).setTask 0 (.tick ⟨now, due, due, .insert⟩)).tasks 0 =
      some (.tick ⟨now, due, due, .insert⟩) := by simp
  obtain ⟨es, s, hrun, hfinished, hfire⟩ := run_fireRows timeText htask
  exact ⟨_, s, .cons hselect (tickSteps_of_own hrun (.inl ⟨_, htask, rfl⟩)), hfinished, hfire⟩

/-- Simultaneous ticks are one tick. In every interleaving of any number of ticks with one time, of
which at least one has run to its end, the schedules are those that a single tick leaves, and so are
the jobs, up to their ids and their order; and another tick at that time changes nothing and returns
0. Assumed of the text of a time: it contains no `@`. -/
theorem simultaneous_ticks (noAt : ∀ time, '@' ∉ (timeText time).toList)
    (hrun : Run (TickStep timeText now) (.start db) es s) {i : ℕ} {due : List ScheduleRow}
    (hfinished : s.tasks i = some (.tick ⟨now, due, [], .insert⟩)) :
    s.db.schedules = (tick timeText db now).1.schedules ∧
    (s.db.jobs.rows.map withoutId).Perm ((tick timeText db now).1.jobs.rows.map withoutId) ∧
    tick timeText s.db now = (s.db, .ok 0) := by
  have hprogress := progress_of_run hrun
  obtain ⟨_, alone, halone, hended, htick⟩ :=
    run_tickAlone timeText (.refl (dueRows db.schedules now))
  have hone := progress_of_run halone
  rw [tick, htick]
  refine ⟨Schedules.ext ?_, ?_, hprogress.tick_again hfinished rfl⟩
  · exact (hprogress.schedules_of_finished hfinished rfl).trans
      (hone.schedules_of_finished hended rfl).symm
  · exact (hprogress.jobs_perm noAt hfinished rfl).trans (hone.jobs_perm noAt hended rfl).symm

/-- Two schedules, one of which has a job under the key of its slot already. -/
def twoSchedules : Database :=
  (runActions exactSeconds (.start .empty) [.add ⟨"report", "email", "null", 10, some 0, 0⟩,
    .add ⟨"backup", "dump", "null", 60, some 0, 0⟩,
    .enqueue 0 ⟨"dump", "null", 0, 5, 0, some "schedule:backup@0.0", 0⟩]).2.db

/-- A second tick selects between the `enqueue` and the `UPDATE` of the first, and stops after it
has fired one schedule. -/
def stoppedTick : List Action :=
  [.tick 0 25, .resume 0, .tick 1 25, .resume 1, .resume 1, .resume 1, .resume 0, .resume 0,
    .resume 0, .resume 0]

instance (now : ℚ) : DecidablePred (Event.TicksAt now)
  | .tickSelect _ now' _ => inferInstanceAs (Decidable (now' = now))
  | .tickInsert .. | .tickLookup .. | .tickUpdate .. => .isTrue trivial
  | .call _ | .enqueue .. | .lookup .. | .add .. | .remove .. | .setEnabled .. | .claim ..
  | .handled .. | .settle .. | .raised .. => .isFalse id

/-- The run of these ticks. -/
abbrev stoppedTickRun : List Event × State :=
  runGuarded exactSeconds (fun _ e _ ↦ e.TicksAt 25) (.start twoSchedules) stoppedTick

theorem simultaneous_ticks_stoppedTick :
    stoppedTickRun.2.db.schedules = (tick exactSeconds twoSchedules 25).1.schedules := by
  have hrun : Run (TickStep exactSeconds 25) (.start twoSchedules) stoppedTickRun.1
      stoppedTickRun.2 := run_runGuarded _ _ _ _
  have hfinished : stoppedTickRun.2.tasks 0 =
      some (.tick ⟨25, dueRows twoSchedules.schedules 25, [], .insert⟩) := by
    decide +kernel
  exact (simultaneous_ticks isTimeText_exactSeconds.noAt hrun hfinished).1

end Relay.System
