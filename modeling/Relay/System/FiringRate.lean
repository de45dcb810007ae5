import Relay.System.SlotFiring

/-!
# How often a schedule can fire

Ticks with any clocks run side by side and may stop anywhere, so one due slot is found by many of
them, and a tick may come back to slots that others have left long ago. Still a schedule that was
made once makes no more jobs than its grid has points (`firing_rate`). Every row of it, in the table
or in the hands of a tick, is at a point of the grid of its first run (`Gridded`): an `UPDATE` moves
it from the point the tick has read, by whole intervals of the row the tick has read. The slots that
get a job are such points, not after the clock of the tick, and no two of them are the same.
-/

set_option autoImplicit false
set_option relaxedAutoImplicit false

namespace Relay.System

open Foundations Store Queue Scheduler Workers

/-- The arguments of an accepted `add` of a name. -/
def Event.made? (name : String) : Event → Option AddArgs
  | .add args (.ok ()) => if args.name = name then some args else none
  | _ => none

/-- The slot for which a tick with a clock up to `last` makes a job of the schedule with a name. -/
def Event.firedSlot? (name : String) (last : ℚ) : Event → Option ℚ
  | .tickInsert _ row args (some _) =>
    if row.name = name ∧ args.now ≤ last then some row.nextRun else none
  | _ => none

/-- The row has the interval of an `add` and is at a point of its grid. -/
def IsGridRow (args : AddArgs) (row : ScheduleRow) : Prop :=
  row.intervalS = args.intervalS ∧ row.nextRun ∈ Grid.points args.row.nextRun args.intervalS

/-- The schedule is at a point of its grid, and so are the rows of it that ticks have read. -/
structure Gridded (args : AddArgs) (s : State) : Prop where
  current : ∀ row ∈ s.db.schedules.row? args.name, IsGridRow args row
  held : ∀ i tick, s.tasks i = some (.tick tick) → ∀ row ∈ tick.due, row.name = args.name →
    IsGridRow args row

variable {timeText : ℚ → String} {s t : State} {e : Event} {es : List Event} {args : AddArgs}

theorem made?_eq_some {name : String} (h : e.made? name = some args) :
    e = .add args (.ok ()) ∧ args.name = name := by
  unfold Event.made? at h
  split at h
  · split_ifs at h with hname
    obtain rfl := Option.some.inj h
    exact ⟨rfl, hname⟩
  · cases h

theorem firedSlot?_eq_some {name : String} {last slot : ℚ}
    (h : e.firedSlot? name last = some slot) : ∃ i row args id,
      e = .tickInsert i row args (some id) ∧ row.name = name ∧ row.nextRun = slot ∧
      args.now ≤ last := by
  unfold Event.firedSlot? at h
  split at h
  · split_ifs at h with hfired
    exact ⟨_, _, _, _, rfl, hfired.1, Option.some.inj h, hfired.2⟩
  · cases h

/-! ### One step -/

/-- An accepted `add` has a positive interval. -/
theorem Step.positive_of_add (h : Step timeText s (.add args (.ok ())) t) :
    0 < args.intervalS := by
  have hstep := h.scheduleStep args.name
  generalize s.db.schedules.row? args.name = before at hstep
  generalize t.db.schedules.row? args.name = after at hstep
  cases hstep with
  | onAdd _ _ _ check => exact check
  | untouched _ _ h => exact absurd ⟨rfl, rfl⟩ h

/-- A tick that moves a schedule on its grid leaves it on the grid. -/
theorem IsGridRow.moveTo {row cur : ScheduleRow} (hrow : IsGridRow args row)
    (hcur : IsGridRow args cur) (hpos : 0 < row.intervalS) {now : ℚ} (hle : row.nextRun ≤ now) :
    IsGridRow args (moveTo (nextRun now row) cur) := by
  refine ⟨hcur.1, ?_⟩
  show Grid.nextPoint now row.nextRun row.intervalS ∈ _
  rw [hrow.1] at hpos ⊢
  exact Grid.nextPoint_mem_points hpos hrow.2 hle

/-- The row of an `UPDATE` is one the tick has read. -/
theorem Gridded.held_of_tickUpdate {db : Database} (hrun : Run (Step timeText) (.start db) es s)
    (h : Gridded args s) {i : ℕ} {now : ℚ} {row : ScheduleRow} {moved : Bool}
    (hstep : Step timeText s (.tickUpdate i now row moved) t) (hname : row.name = args.name) :
    IsGridRow args row := by
  obtain ⟨due, rest, htask, -⟩ := hstep.task_of_tickUpdate
  have hmem : row ∈ due := (tickSound_of_run hrun i _ htask).rest.subset (List.mem_cons_self ..)
  exact h.held i _ htask row hmem hname

theorem Gridded.current_step {db : Database} (hrun : Run (Step timeText) (.start db) es s)
    (h : Gridded args s) (hstep : Step timeText s e t)
    (honly : ∀ args' ∈ e.made? args.name, args' = args) :
    ∀ row ∈ t.db.schedules.row? args.name, IsGridRow args row := by
  have hbefore := h.current
  have hschedule := hstep.scheduleStep args.name
  generalize s.db.schedules.row? args.name = before at hbefore hschedule
  generalize t.db.schedules.row? args.name = after at hschedule ⊢
  cases hschedule with
  | onAdd args' _ hname check =>
    obtain rfl := honly args' (if_pos hname)
    rintro _ ⟨⟩
    exact ⟨rfl, Grid.start_mem_points _ _⟩
  | onRemove => exact nofun
  | onSetEnabled enabled found =>
    intro row hrow
    obtain ⟨old, hold, rfl⟩ := Option.map_eq_some_iff.mp hrow
    exact hbefore old hold
  | onAdvance i now row cur hcur hslot =>
    rintro _ ⟨⟩
    have hname : row.name = args.name := hslot.1.symm.trans hcur
    obtain ⟨hpos, hle, -⟩ := row_of_tickUpdate hrun hstep
    exact (h.held_of_tickUpdate hrun hstep hname).moveTo (hbefore cur rfl) hpos hle
  | untouched => exact hbefore

/-- Every step that does not make the schedule anew keeps its rows on the grid. -/
theorem Gridded.step {db : Database} (hrun : Run (Step timeText) (.start db) es s)
    (h : Gridded args s) (hstep : Step timeText s e t)
    (honly : ∀ args' ∈ e.made? args.name, args' = args) : Gridded args t := by
  refine ⟨h.current_step hrun hstep honly, fun i tick htask row hrow hname ↦ ?_⟩
  have hbefore := h.held i
  have htaskStep := hstep.taskStep i
  rw [htask] at htaskStep
  generalize s.tasks i = before at htaskStep hbefore
  cases htaskStep with
  | tickSelect now due =>
    obtain ⟨hmem, -⟩ := hstep.due_of_tickSelect row hrow
    exact h.current row (hname ▸ Schedules.row?_of_mem hmem)
  | tickInserted => exact hbefore _ rfl row hrow hname
  | tickConflict => exact hbefore _ rfl row hrow hname
  | tickFound => exact hbefore _ rfl row hrow hname
  | tickUpdate => exact hbefore _ rfl row hrow hname
  | other => exact hbefore _ rfl row hrow hname

/-! ### Runs -/

theorem gridded_of_run (hrun : Run (Step timeText) (.start .empty) es s) :
    (∀ e ∈ es, ∀ args' ∈ e.made? args.name, args' = args) → Gridded args s := by
  refine hrun.history (motive := fun es s ↦
    (∀ e ∈ es, ∀ args' ∈ e.made? args.name, args' = args) → Gridded args s) ?_ ?_
  · exact fun _ ↦ ⟨nofun, nofun⟩
  · intro es s e t hleft ih hstep honly
    refine (ih fun f hf ↦ honly f (List.mem_append_left _ hf)).step hleft hstep ?_
    exact honly e (List.mem_append_right _ (List.mem_singleton_self e))

/-- A tick that makes a job makes it under the key of a slot that is due. -/
theorem slot_of_tickInsert {db : Database} (hrun : Run (Step timeText) (.start db) es s) {i : ℕ}
    {row : ScheduleRow} {enqueued : EnqueueArgs ℚ} {id : Option ℕ}
    (h : Step timeText s (.tickInsert i row enqueued id) t) :
    enqueued.idempotencyKey = some (slotKey timeText row.name row.nextRun) ∧
      row.nextRun ≤ enqueued.now ∧ ∃ tick, s.tasks i = some (.tick tick) ∧ row ∈ tick.due := by
  cases h with
  | tickInsert _ now due _ rest htask =>
    obtain ⟨hdue, hrest, -⟩ := tickSound_of_run hrun i _ htask
    have hmem : row ∈ due := hrest.subset (List.mem_cons_self ..)
    exact ⟨rfl, (hdue row hmem).2.2, _, htask, hmem⟩

/-- The slots that ticks make jobs for are different. -/
theorem firedSlots_nodup {db : Database} (hrun : Run (Step timeText) (.start db) es s)
    (name : String) (last : ℚ) : (es.filterMap (Event.firedSlot? name last)).Nodup := by
  have hkeys : (es.filterMap fun e ↦ e.queue?.bind Queue.Event.insertedKey?).Nodup := by
    rw [← List.filterMap_filterMap]
    exact (insertedKeys_nodup (run_queue hrun)).1
  refine (List.Nodup.sublist (map_filterMap_sublist ?_) hkeys).of_map (slotKey timeText name)
  intro e he slot hslot
  obtain ⟨i, row, enqueued, id, rfl, rfl, rfl, -⟩ := firedSlot?_eq_some hslot
  obtain ⟨before, after, rfl⟩ := List.append_of_mem he
  obtain ⟨_, _, hbefore, hstep, -⟩ := hrun.at_label
  exact (slot_of_tickInsert hbefore hstep).1

/-- A schedule makes no more jobs than its grid has points, whatever the ticks do. In every run in
which there is one accepted `add` of a name, the jobs that ticks with a clock up to `last` make for
the schedule are each for another point of the grid of its first run, up to `last`; so they are no
more than those points, one for every interval from the first run to `last` and one more. -/
theorem firing_rate (hrun : Run (Step timeText) (.start .empty) es s) {name : String}
    (honly : es.filterMap (Event.made? name) = [args]) (last : ℚ) :
    (es.filterMap (Event.firedSlot? name last)).Nodup ∧
    (∀ slot ∈ es.filterMap (Event.firedSlot? name last),
      slot ∈ Grid.points args.row.nextRun args.intervalS ∧ slot ≤ last) ∧
    (es.filterMap (Event.firedSlot? name last)).length ≤
      (⌊(last - args.row.nextRun) / args.intervalS⌋ + 1).toNat := by
  have hmade : ∃ e ∈ es, e.made? name = some args := by
    rw [← List.mem_filterMap, honly]
    exact List.mem_singleton_self args
  obtain ⟨e, he, hadd⟩ := hmade
  obtain ⟨rfl, rfl⟩ := made?_eq_some hadd
  have hsame : ∀ e ∈ es, ∀ args' ∈ e.made? args.name, args' = args := by
    intro e he args' hargs'
    have hmem : args' ∈ es.filterMap (Event.made? args.name) :=
      List.mem_filterMap.mpr ⟨e, he, hargs'⟩
    rw [honly] at hmem
    exact List.mem_singleton.mp hmem
  have hpos : 0 < args.intervalS := by
    obtain ⟨before, after, rfl⟩ := List.append_of_mem he
    obtain ⟨u, v, -, hstep, -⟩ := hrun.at_label
    exact hstep.positive_of_add
  have hslots : ∀ slot ∈ es.filterMap (Event.firedSlot? args.name last),
      slot ∈ Grid.points args.row.nextRun args.intervalS ∧ slot ≤ last := by
    intro slot hslot
    obtain ⟨e, he, hfired⟩ := List.mem_filterMap.mp hslot
    obtain ⟨i, row, enqueued, id, rfl, hname, rfl, hlast⟩ := firedSlot?_eq_some hfired
    obtain ⟨before, after, rfl⟩ := List.append_of_mem he
    obtain ⟨u, v, hbefore, hstep, -⟩ := hrun.at_label
    obtain ⟨-, hdue, tick, htask, hmem⟩ := slot_of_tickInsert hbefore hstep
    have hgridded : Gridded args u := gridded_of_run hbefore fun f hf ↦
      hsame f (List.mem_append_left _ hf)
    exact ⟨(hgridded.held i tick htask row hmem hname).2, hdue.trans hlast⟩
  have hnodup := firedSlots_nodup hrun args.name last
  exact ⟨hnodup, hslots, Grid.length_le_of_points hpos hnodup hslots⟩

/-- Of the overlapping ticks of the example, whose clocks are up to 25, no more than three make a
job. -/
theorem firing_rate_overlappingTicks :
    ((runActions wholeSeconds (.start .empty) overlappingTicks).1.filterMap
      (Event.firedSlot? "report" 25)).length ≤ 3 := by
  have hrun := run_runActions wholeSeconds (.start .empty) overlappingTicks
  have honly : (runActions wholeSeconds (.start .empty) overlappingTicks).1.filterMap
      (Event.made? "report") = [⟨"report", "email", "null", 10, some 0, 0⟩] := by decide +kernel
  have hrate := (firing_rate hrun honly 25).2.2
  refine hrate.trans ?_
  decide +kernel

end Relay.System
