import Relay.System.Interleaving
import Relay.Queue.Keys

/-!
# Ticks in progress

What holds of every tick at every moment of a run, whatever comes between its statements
(`TickSound`): the rows it read were due and have a positive interval, those it has not finished
are the last of them, and once it has enqueued one the key of its slot is in the jobs table.
-/

set_option autoImplicit false
set_option relaxedAutoImplicit false

namespace Relay.System

open Foundations Store Queue Scheduler Workers

/-- What a tick in progress can rely on. -/
structure TickSound (timeText : ℚ → String) (jobs : Jobs ℚ) (tick : Tick) : Prop where
  due : ∀ row ∈ tick.due, 0 < row.intervalS ∧ Due tick.now row
  rest : tick.rest <:+ tick.due
  fired : tick.stage ≠ .insert → ∀ row ∈ tick.rest.head?,
    HasKey jobs (slotKey timeText row.name row.nextRun)

variable {timeText : ℚ → String} {s t : State} {e : Event} {es : List Event}

/-- A key that is taken stays so. -/
theorem Step.hasKey (h : Step timeText s e t) {key : String} (hkey : HasKey s.db.jobs key) :
    HasKey t.db.jobs key := hasKey_of_run (run_queue (.single h)) hkey

/-- The rows a tick reads are rows of the table that are due. -/
theorem Step.due_of_tickSelect {i : ℕ} {now : ℚ} {due : List ScheduleRow}
    (h : Step timeText s (.tickSelect i now due) t) :
    ∀ row ∈ due, row ∈ s.db.schedules.rows ∧ Due now row := by
  cases h with
  | tickSelect _ _ _ _ hdue =>
    intro row hrow
    have hread := List.mem_filter.mp (hdue.mem_iff.mp hrow)
    exact ⟨hread.1, of_decide_eq_true hread.2⟩

/-- After the `INSERT` of a tick the key of the slot is in the jobs table, whether it took effect
or found the key there. -/
theorem Step.hasKey_of_tickInsert {i : ℕ} {row : ScheduleRow} {now : ℚ} {id : Option ℕ}
    (h : Step timeText s (.tickInsert i row (slotArgs timeText now row) id) t) :
    HasKey t.db.jobs (slotKey timeText row.name row.nextRun) := by
  have hstep := h.queue_step.2 _ rfl
  cases id with
  | none =>
    obtain ⟨key, hkey, htaken⟩ := insert_none_iff.mp (Reply.inserted.inj (Prod.mk.inj hstep).2)
    exact Option.some.inj hkey ▸ h.hasKey htaken
  | some id => exact (hstep.insertedKey rfl).2

/-- Every step keeps every tick sound. -/
theorem Step.tickSound (h : Step timeText s e t)
    (hsound : ∀ i tick, s.tasks i = some (.tick tick) → TickSound timeText s.db.jobs tick) :
    ∀ i tick, t.tasks i = some (.tick tick) → TickSound timeText t.db.jobs tick := by
  intro i tick htask
  have hstep := h.taskStep i
  have hbefore := hsound i
  rw [htask] at hstep
  generalize s.tasks i = before at hstep hbefore
  cases hstep with
  | tickSelect now due =>
    refine ⟨fun row hrow ↦ ?_, List.suffix_rfl, fun hstage ↦ absurd rfl hstage⟩
    obtain ⟨hmem, hdue⟩ := h.due_of_tickSelect row hrow
    exact ⟨s.db.schedules.positive row hmem, hdue⟩
  | tickInserted now due row rest id =>
    obtain ⟨hdue, hrest, -⟩ := hbefore _ rfl
    refine ⟨hdue, hrest, ?_⟩
    rintro - _ ⟨⟩
    exact h.hasKey_of_tickInsert
  | tickConflict now due row rest =>
    obtain ⟨hdue, hrest, -⟩ := hbefore _ rfl
    refine ⟨hdue, hrest, ?_⟩
    rintro - _ ⟨⟩
    exact h.hasKey_of_tickInsert
  | tickFound now due row rest id =>
    obtain ⟨hdue, hrest, hfired⟩ := hbefore _ rfl
    exact ⟨hdue, hrest, fun _ row hrow ↦ h.hasKey (hfired nofun row hrow)⟩
  | tickUpdate now due row rest moved =>
    obtain ⟨hdue, hrest, -⟩ := hbefore _ rfl
    exact ⟨hdue, (List.suffix_cons row rest).trans hrest, fun hstage ↦ absurd rfl hstage⟩
  | other _ _ hi =>
    obtain ⟨hdue, hrest, hfired⟩ := hbefore _ rfl
    exact ⟨hdue, hrest, fun hstage row hrow ↦ h.hasKey (hfired hstage row hrow)⟩

/-- The ticks of every run are sound. -/
theorem tickSound_of_run {db : Database} (hrun : Run (Step timeText) (.start db) es s) :
    ∀ i tick, s.tasks i = some (.tick tick) → TickSound timeText s.db.jobs tick := by
  refine hrun.invariant (fun s ↦ ∀ i tick, s.tasks i = some (.tick tick) →
    TickSound timeText s.db.jobs tick) (fun _ _ _ hsound hstep ↦ hstep.tickSound hsound) ?_
  exact fun _ _ h ↦ nomatch h

/-- The task that takes an `UPDATE` step. -/
theorem Step.task_of_tickUpdate {i : ℕ} {now : ℚ} {row : ScheduleRow} {moved : Bool}
    (h : Step timeText s (.tickUpdate i now row moved) t) :
    ∃ due rest, s.tasks i = some (.tick ⟨now, due, row :: rest, .update⟩) ∧
      t.tasks i = some (.tick ⟨now, due, rest, .insert⟩) := by
  cases h with
  | tickUpdate _ _ due _ rest htask =>
    exact ⟨due, rest, htask, (State.tasks_setTask ..).trans (if_pos rfl)⟩

/-- The row of an `UPDATE` step is one that was due, and its slot has been fired. -/
theorem row_of_tickUpdate {db : Database} (hrun : Run (Step timeText) (.start db) es s)
    {i : ℕ} {now : ℚ} {row : ScheduleRow} {moved : Bool}
    (h : Step timeText s (.tickUpdate i now row moved) t) :
    0 < row.intervalS ∧ row.nextRun ≤ now ∧
      HasKey s.db.jobs (slotKey timeText row.name row.nextRun) := by
  obtain ⟨due, rest, htask, -⟩ := h.task_of_tickUpdate
  obtain ⟨hdue, hrest, hfired⟩ := tickSound_of_run hrun i _ htask
  obtain ⟨hpos, -, hle⟩ := hdue row (hrest.subset (List.mem_cons_self ..))
  exact ⟨hpos, hle, hfired nofun row rfl⟩

/-! ### The schedule under ticks -/

/-- An `UPDATE` step moves the schedule it names if it is still at the slot the tick read, and
leaves it as it is if not. -/
theorem Step.tickUpdate_row {i : ℕ} {now : ℚ} {row : ScheduleRow} {moved : Bool}
    (h : Step timeText s (.tickUpdate i now row moved) t) :
    (∃ cur, s.db.schedules.row? row.name = some cur ∧ cur.nextRun = row.nextRun ∧ moved = true ∧
      t.db.schedules.row? row.name = some (moveTo (nextRun now row) cur)) ∨
    ((∀ cur ∈ s.db.schedules.row? row.name, cur.nextRun ≠ row.nextRun) ∧ moved = false ∧
      t.db.schedules.row? row.name = s.db.schedules.row? row.name) := by
  cases h
  rcases advance_cases s.db.schedules now row row.name with
    ⟨cur, hcur, hslot, hmoved, hnew⟩ | ⟨hnone, hmoved, hnew⟩
  · exact .inl ⟨cur, hcur, hslot.2, hmoved, hnew⟩
  · refine .inr ⟨fun cur hcur hslot ↦ ?_, by simpa using hmoved, hnew⟩
    exact hnone cur hcur ⟨Schedules.name_of_row? hcur, hslot⟩

/-- The slot a matching `UPDATE` moves the schedule with a name away from. -/
def Event.advancedFrom? (name : String) : Event → Option ℚ
  | .tickUpdate _ _ row true => if row.name = name then some row.nextRun else none
  | _ => none

/-- An `add` or `remove` of a name. -/
def Event.Replaces (name : String) : Event → Prop
  | .add args _ => args.name = name
  | .remove name' _ => name' = name
  | _ => False

theorem advancedFrom?_eq_some {name : String} {slot : ℚ} (h : e.advancedFrom? name = some slot) :
    ∃ i now row, e = .tickUpdate i now row true ∧ row.name = name ∧ row.nextRun = slot := by
  unfold Event.advancedFrom? at h
  split at h
  · split_ifs at h with hname
    exact ⟨_, _, _, rfl, hname, Option.some.inj h⟩
  · cases h

/-- A step that is not an `add` or `remove` of the schedule leaves its `next_run` as it is, or is
an `UPDATE` that moves it to a later time. -/
theorem nextRun_step {db : Database} (hrun : Run (Step timeText) (.start db) es s)
    (h : Step timeText s e t) {name : String} (hkeep : ¬ e.Replaces name) :
    (e.advancedFrom? name = none ∧
      (t.db.schedules.row? name).map ScheduleRow.nextRun =
        (s.db.schedules.row? name).map ScheduleRow.nextRun) ∨
    ∃ old new, s.db.schedules.row? name = some old ∧ t.db.schedules.row? name = some new ∧
      e.advancedFrom? name = some old.nextRun ∧ old.nextRun < new.nextRun := by
  have hstep := h.scheduleStep name
  generalize s.db.schedules.row? name = before at hstep ⊢
  generalize t.db.schedules.row? name = after at hstep ⊢
  cases hstep with
  | onAdd args _ hname => exact absurd hname hkeep
  | onRemove => exact absurd rfl hkeep
  | onSetEnabled enabled found =>
    refine .inl ⟨rfl, ?_⟩
    rw [Option.map_map]
    rfl
  | onAdvance i now row cur hcur hslot =>
    obtain ⟨hpos, hle, -⟩ := row_of_tickUpdate hrun h
    refine .inr ⟨cur, _, rfl, rfl, ?_, ?_⟩
    · rw [Event.advancedFrom?, if_pos (hslot.1.symm.trans hcur), hslot.2]
    · rw [hslot.2]
      exact slot_lt_nextRun hpos hle
  | untouched _ _ huntouched =>
    refine .inl ⟨?_, rfl⟩
    cases hfrom : e.advancedFrom? name with
    | none => rfl
    | some slot =>
      obtain ⟨i, now, row, rfl, hname, -⟩ := advancedFrom?_eq_some hfrom
      exact absurd ⟨hname, rfl⟩ huntouched

end Relay.System
