import Relay.System.Ticks
import Relay.System.Execution

/-!
# Downtime is not made up for

A tick moves the schedules it read past its own time, unless another tick has moved one of them
first. Then the guard on `next_run` rejects the update, and the schedule stays where the other tick
put it, which is past the clock of that tick. If that clock was behind, the schedule is still due
for the first tick and the downtime is made up for after all (`lateTick_backfills`). The guard
cannot tell the two cases apart. An update leaves its schedule past the time of its tick exactly if
the tick has not been overtaken in this way, and ticks that are never overtaken leave nothing due
behind (`no_backfill`).
-/

set_option autoImplicit false
set_option relaxedAutoImplicit false

namespace Relay.System

open Foundations Store Queue Scheduler Workers

/-- A step that changes the schedules other than by an `UPDATE` of a tick. -/
def Event.Edits : Event → Prop
  | .add .. => True
  | .remove .. => True
  | .setEnabled .. => True
  | _ => False

instance : DecidablePred Event.Edits := fun e ↦ by
  unfold Event.Edits
  split <;> infer_instance

/-- The schedule with a name is past a time. -/
def Past (schedules : Schedules) (now : ℚ) (name : String) : Prop :=
  ∀ cur ∈ schedules.row? name, now < cur.nextRun

/-- No tick with a clock behind `now` has moved the schedule since the row was read: it is at the
slot of the row, or past `now`. -/
def NotOvertaken (schedules : Schedules) (now : ℚ) (row : ScheduleRow) : Prop :=
  ∀ cur ∈ schedules.row? row.name, cur.nextRun = row.nextRun ∨ now < cur.nextRun

/-- The step is not the `UPDATE` of a tick that has been overtaken. -/
def NeverOvertaken (before : State) : Event → State → Prop
  | .tickUpdate _ now row _, _ => NotOvertaken before.db.schedules now row
  | _, _ => True

instance (before : State) (e : Event) (after : State) :
    Decidable (NeverOvertaken before e after) := by
  unfold NeverOvertaken NotOvertaken
  split <;> infer_instance

variable {timeText : ℚ → String} {s t : State} {e : Event} {es : List Event}

theorem not_replaces_of_not_edits (h : ¬ e.Edits) (name : String) : ¬ e.Replaces name := by
  cases e with
  | add args result => exact absurd trivial h
  | remove name' removed => exact absurd trivial h
  | _ => exact id

/-- Where nobody edits the schedules, one that is past a time stays so. -/
theorem Step.past {db : Database} (hrun : Run (Step timeText) (.start db) es s)
    (h : Step timeText s e t) (hedit : ¬ e.Edits) {now : ℚ} {name : String}
    (hpast : Past s.db.schedules now name) : Past t.db.schedules now name := by
  intro cur hcur
  rcases nextRun_step hrun h (not_replaces_of_not_edits hedit name) with
    ⟨-, hsame⟩ | ⟨old, new, hold, hnew, -, hlt⟩
  · rw [Option.mem_def.mp hcur] at hsame
    obtain ⟨old, hold, heq⟩ := Option.map_eq_some_iff.mp hsame.symm
    exact heq ▸ hpast old hold
  · rw [← Option.mem_unique hnew hcur]
    exact (hpast old hold).trans hlt

/-- An `UPDATE` leaves the schedule past the time of its tick exactly if the tick has not been
overtaken. -/
theorem past_iff_notOvertaken {db : Database} (hrun : Run (Step timeText) (.start db) es s) {i : ℕ}
    {now : ℚ} {row : ScheduleRow} {moved : Bool}
    (h : Step timeText s (.tickUpdate i now row moved) t) :
    Past t.db.schedules now row.name ↔ NotOvertaken s.db.schedules now row := by
  obtain ⟨hpos, -, -⟩ := row_of_tickUpdate hrun h
  rcases h.tickUpdate_row with ⟨cur, hcur, hslot, -, hnew⟩ | ⟨hother, -, hsame⟩
  · refine iff_of_true (fun new hmem ↦ ?_) fun cur' hcur' ↦ ?_
    · rw [← Option.mem_unique hnew hmem]
      exact lt_nextRun hpos now
    · exact .inl (Option.mem_unique hcur hcur' ▸ hslot)
  · rw [Past, hsame]
    constructor
    · intro hpast cur hcur
      exact .inr (hpast cur hcur)
    · intro hnot cur hcur
      exact (hnot cur hcur).resolve_left (hother cur hcur)

/-- A tick that was never overtaken has moved each row it has finished past its time. -/
theorem due_past_of_run {db : Database}
    (hrun : Run (Throughout (Step timeText) NeverOvertaken) (.start db) es s) :
    (∀ e ∈ es, ¬ e.Edits) → ∀ i tick, s.tasks i = some (.tick tick) →
      ∀ row ∈ tick.due, row ∈ tick.rest ∨ Past s.db.schedules tick.now row.name := by
  refine hrun.history (motive := fun es s ↦ (∀ e ∈ es, ¬ e.Edits) →
    ∀ i tick, s.tasks i = some (.tick tick) →
      ∀ row ∈ tick.due, row ∈ tick.rest ∨ Past s.db.schedules tick.now row.name) ?_ ?_
  · exact fun _ _ _ h ↦ nomatch h
  · rintro es s e t hleft ih ⟨h, hnot⟩ hedits i tick htask row hrow
    have hrun : Run (Step timeText) (.start db) es s := hleft.mono fun _ _ _ h ↦ h.1
    have hedit : ¬ e.Edits := hedits e (List.mem_append_right _ (List.mem_singleton_self e))
    have hbefore := ih (fun f hf ↦ hedits f (List.mem_append_left _ hf)) i
    have hkept : ∀ {now name}, Past s.db.schedules now name → Past t.db.schedules now name :=
      fun hpast ↦ h.past hrun hedit hpast
    have hstep := h.taskStep i
    rw [htask] at hstep
    generalize s.tasks i = before at hstep hbefore
    cases hstep with
    | tickSelect now due => exact .inl hrow
    | tickInserted now due head rest id => exact (hbefore _ rfl row hrow).imp_right hkept
    | tickConflict now due head rest => exact (hbefore _ rfl row hrow).imp_right hkept
    | tickFound now due head rest id => exact (hbefore _ rfl row hrow).imp_right hkept
    | tickUpdate now due head rest moved =>
      rcases hbefore _ rfl row hrow with hmem | hpast
      · rcases List.mem_cons.mp hmem with rfl | hmem
        · exact .inr ((past_iff_notOvertaken hrun h).mpr hnot)
        · exact .inl hmem
      · exact .inr (hkept hpast)
    | other _ _ hi => exact (hbefore _ rfl row hrow).imp_right hkept

/-- Ticks do not make up for downtime, unless they are overtaken. An `UPDATE` leaves its schedule
past the time of its tick exactly if no tick with a clock behind it has moved the schedule since it
was read. When no update of a run is overtaken and nobody edits the schedules, every tick that has
finished has left the schedules it found due past its time, so that none of them is due then. -/
theorem no_backfill {db : Database} (hrun : Run (Step timeText) (.start db) es s) :
    (∀ i now row moved t, Step timeText s (.tickUpdate i now row moved) t →
      (Past t.db.schedules now row.name ↔ NotOvertaken s.db.schedules now row)) ∧
    ((∀ e ∈ es, ¬ e.Edits) → Run (Throughout (Step timeText) NeverOvertaken) (.start db) es s →
      ∀ i now due stage, s.tasks i = some (.tick ⟨now, due, [], stage⟩) → ∀ row ∈ due,
        Past s.db.schedules now row.name ∧
        ∀ other ∈ dueRows s.db.schedules now, other.name ≠ row.name) := by
  refine ⟨fun i now row moved t h ↦ past_iff_notOvertaken hrun h,
    fun hedits hnot i now due stage htask row hrow ↦ ?_⟩
  have hpast : Past s.db.schedules now row.name :=
    (due_past_of_run hnot hedits i _ htask row hrow).resolve_left List.not_mem_nil
  refine ⟨hpast, fun other hother hname ↦ ?_⟩
  obtain ⟨hmem, hdue⟩ := List.mem_filter.mp hother
  have hlt := hpast other (hname ▸ Schedules.row?_of_mem hmem)
  have hle : other.nextRun ≤ now := (of_decide_eq_true hdue).2
  exact absurd hlt (not_lt.mpr hle)

/-- A database with one schedule, due at 0 and every 10 seconds. -/
def oneSchedule : Database := ⟨.empty, (add .empty ⟨"report", "email", "null", 10, some 0, 0⟩).1⟩

/-- Two ticks in step, the second with the clock `late`; the second updates the schedule first. -/
def twoTicks (late : ℚ) : List Action :=
  [.tick 0 100, .tick 1 late, .resume 0, .resume 1, .resume 1, .resume 1, .resume 0]

theorem no_backfill_twoTicks :
    Past (runGuarded wholeSeconds NeverOvertaken (.start oneSchedule) (twoTicks 100)).2.db.schedules
      100 "report" := by
  have hrun := run_runGuarded wholeSeconds NeverOvertaken (.start oneSchedule) (twoTicks 100)
  exact ((no_backfill (hrun.mono fun _ _ _ h ↦ h.1)).2 (by decide +kernel) hrun 0 100
    [⟨"report", "email", "\x7b\x7d", 10, 0, true⟩] .insert (by decide +kernel) _
    (List.mem_singleton_self _)).1

/-- A tick at 5 that overtakes a tick at 100 leaves the schedule at 10: the tick at 100 has taken
its last step, and the schedule it found due is due again. -/
theorem lateTick_backfills :
    Run (Step wholeSeconds) (.start oneSchedule)
      (runActions wholeSeconds (.start oneSchedule) (twoTicks 5)).1
      (runActions wholeSeconds (.start oneSchedule) (twoTicks 5)).2 ∧
    (∀ e ∈ (runActions wholeSeconds (.start oneSchedule) (twoTicks 5)).1, ¬ e.Edits) ∧
    (runActions wholeSeconds (.start oneSchedule) (twoTicks 5)).2.tasks 0 =
      some (.tick ⟨100, [⟨"report", "email", "\x7b\x7d", 10, 0, true⟩], [], .insert⟩) ∧
    ¬ Past (runActions wholeSeconds (.start oneSchedule) (twoTicks 5)).2.db.schedules 100
      "report" := by
  refine ⟨run_runActions _ _ _, by decide +kernel, by decide +kernel, ?_⟩
  unfold Past
  decide +kernel

end Relay.System
