import Relay.Queue.Operations
import Relay.Foundations.Grid

/-!
# The scheduler

The methods of `Scheduler` in `scheduler.py`. `add`, `remove` and `set_enabled` are one statement
on the schedules table. `tick` is many: a `SELECT` of the due rows (`dueRows`) and then, for each
row it read, an `enqueue` under the key of the run slot (`slotArgs`) and an `UPDATE` of `next_run`
guarded by the value that was read (`advance`). `tick` here is the method when nothing comes
between its statements; the interleaved steps are in `System.Interleaving`.

The slot key contains the text of a time. `timeText` stands for that rendering and is arbitrary.
-/

set_option autoImplicit false
set_option relaxedAutoImplicit false

namespace Relay.Scheduler

open Foundations Store Queue

/-- The arguments of `add`, with its defaults. The payload is given as its JSON text. -/
structure AddArgs where
  name : String
  kind : String
  payload : String := "null"
  intervalS : ℚ
  startAt : Option ℚ := none
  now : ℚ
deriving DecidableEq, Repr

/-- The row `add` inserts: the first run is at `start_at` when given, else one interval from now. -/
def AddArgs.row (args : AddArgs) : ScheduleRow where
  name := args.name
  kind := args.kind
  payload := dumpsOrEmpty args.payload
  intervalS := args.intervalS
  nextRun := args.startAt.getD (args.now + args.intervalS)
  enabled := true

/-- The `DO UPDATE SET` clause of `add`. -/
def AddArgs.replace (args : AddArgs) (row : ScheduleRow) : ScheduleRow :=
  { args.row with name := row.name }

@[simp] theorem name_replace (args : AddArgs) (row : ScheduleRow) :
    (args.replace row).name = row.name := rfl

theorem check_row {args : AddArgs} (check : 0 < args.intervalS) : 0 < args.row.intervalS := check

theorem check_replace {args : AddArgs} (check : 0 < args.intervalS) (row : ScheduleRow)
    (_ : 0 < row.intervalS) : 0 < (args.replace row).intervalS := check

/-- `Scheduler.add`: an upsert by name. A failed `CHECK (interval_s > 0)` raises. -/
def add (schedules : Schedules) (args : AddArgs) : Schedules × Except PyError Unit :=
  if check : 0 < args.intervalS then
    if h : ∃ row ∈ schedules.rows, row.name = args.name then
      (schedules.update (fun row ↦ row.name = args.name) args.replace (name_replace args)
        (check_replace check), .ok ())
    else
      (schedules.append args.row (fun row hrow hname ↦ h ⟨row, hrow, hname⟩) (check_row check),
        .ok ())
  else (schedules, .error .integrityError)

/-- `Scheduler.remove`; the answer is whether there was such a schedule. -/
def remove (schedules : Schedules) (name : String) : Schedules × Bool :=
  (schedules.delete fun row ↦ row.name = name,
    (schedules.rows.filter fun row ↦ row.name = name).length == 1)

/-- The `SET` clause of `set_enabled`. -/
def enable (enabled : Bool) (row : ScheduleRow) : ScheduleRow := { row with enabled := enabled }

@[simp] theorem name_enable (enabled : Bool) (row : ScheduleRow) :
    (enable enabled row).name = row.name := rfl

theorem check_enable (enabled : Bool) (row : ScheduleRow) (check : 0 < row.intervalS) :
    0 < (enable enabled row).intervalS := check

/-- `Scheduler.set_enabled`; the answer is whether there is such a schedule. -/
def setEnabled (schedules : Schedules) (name : String) (enabled : Bool) : Schedules × Bool :=
  (schedules.update (fun row ↦ row.name = name) (enable enabled) (name_enable enabled)
      (check_enable enabled),
    (Table.touched (fun row ↦ row.name = name) (enable enabled) schedules.rows).length == 1)

/-- `Scheduler.list`: `SELECT * FROM schedules ORDER BY name`. -/
def list (schedules : Schedules) : List ScheduleRow :=
  Table.selectOrdered (fun a b ↦ a.name ≤ b.name) (fun _ ↦ True) schedules.rows

/-! ### Ticks -/

/-- `WHERE enabled = 1 AND next_run <= ?`. -/
def Due (now : ℚ) (row : ScheduleRow) : Prop := row.enabled = true ∧ row.nextRun ≤ now

instance (now : ℚ) (row : ScheduleRow) : Decidable (Due now row) :=
  inferInstanceAs (Decidable (_ ∧ _))

/-- The rows the `SELECT` of `tick` reads, in the order of the table. -/
def dueRows (schedules : Schedules) (now : ℚ) : List ScheduleRow :=
  schedules.rows.filter fun row ↦ Due now row

/-- `schedule:<name>@<slot>`. -/
def slotKey (timeText : ℚ → String) (name : String) (slot : ℚ) : String :=
  "schedule:" ++ name ++ "@" ++ timeText slot

/-- The arguments of the `enqueue` of `tick` for a row it read. -/
def slotArgs (timeText : ℚ → String) (now : ℚ) (row : ScheduleRow) : EnqueueArgs ℚ where
  kind := row.kind
  payload := row.payload
  delayS := 0
  idempotencyKey := some (slotKey timeText row.name row.nextRun)
  now := now

/-- What the `UPDATE` of `tick` writes to `next_run`: the floor in whole intervals, plus one. -/
def nextRun (now : ℚ) (row : ScheduleRow) : ℚ := Grid.nextPoint now row.nextRun row.intervalS

/-- `WHERE name = ? AND next_run = ?`, with the values of the row that was read. -/
def SameSlot (row cur : ScheduleRow) : Prop := cur.name = row.name ∧ cur.nextRun = row.nextRun

instance (row cur : ScheduleRow) : Decidable (SameSlot row cur) :=
  inferInstanceAs (Decidable (_ ∧ _))

/-- The `SET` clause of the `UPDATE` of `tick`. -/
def moveTo (slot : ℚ) (row : ScheduleRow) : ScheduleRow := { row with nextRun := slot }

@[simp] theorem name_moveTo (slot : ℚ) (row : ScheduleRow) :
    (moveTo slot row).name = row.name := rfl

theorem check_moveTo (slot : ℚ) (row : ScheduleRow) (check : 0 < row.intervalS) :
    0 < (moveTo slot row).intervalS := check

/-- The guarded `UPDATE` of `tick` for a row it read; the answer is whether it matched. -/
def advance (schedules : Schedules) (now : ℚ) (row : ScheduleRow) : Schedules × Bool :=
  (schedules.update (SameSlot row) (moveTo (nextRun now row)) (name_moveTo _) (check_moveTo _),
    (Table.touched (SameSlot row) (moveTo (nextRun now row)) schedules.rows).length == 1)

/-- The loop of `tick` over the rows it read. -/
def fireRows (timeText : ℚ → String) (now : ℚ) :
    Database → List ScheduleRow → Database × Except PyError ℕ
  | db, [] => (db, .ok 0)
  | db, row :: rest =>
    match enqueue db.jobs (slotArgs timeText now row) with
    | (jobs, .error e) => ({ db with jobs := jobs }, .error e)
    | (jobs, .ok _) =>
      let (db, fired) :=
        fireRows timeText now ⟨jobs, (advance db.schedules now row).1⟩ rest
      (db, fired.map (· + 1))

/-- `Scheduler.tick`; the answer is the number of schedules fired. -/
def tick (timeText : ℚ → String) (db : Database) (now : ℚ) : Database × Except PyError ℕ :=
  fireRows timeText now db (dueRows db.schedules now)

/-! ### What the statements do to one schedule -/

theorem lt_nextRun {row : ScheduleRow} (hpos : 0 < row.intervalS) (now : ℚ) :
    now < nextRun now row := Grid.lt_nextPoint hpos

theorem slot_lt_nextRun {row : ScheduleRow} (hpos : 0 < row.intervalS) {now : ℚ}
    (hdue : row.nextRun ≤ now) : row.nextRun < nextRun now row :=
  Grid.start_lt_nextPoint hpos hdue

/-- The new slot is the first one after `now`. -/
theorem nextRun_sub_le {row : ScheduleRow} (hpos : 0 < row.intervalS) (now : ℚ) :
    nextRun now row - row.intervalS ≤ now := Grid.nextPoint_sub_le hpos

theorem row?_advance (schedules : Schedules) (now : ℚ) (row : ScheduleRow) (name : String) :
    (advance schedules now row).1.row? name = (schedules.row? name).map fun cur ↦
      if SameSlot row cur then moveTo (nextRun now row) cur else cur :=
  schedules.row?_update (SameSlot row) (name_moveTo _) (check_moveTo _) name

theorem row?_setEnabled (schedules : Schedules) (name' : String) (enabled : Bool) (name : String) :
    (setEnabled schedules name' enabled).1.row? name =
      if name = name' then (schedules.row? name).map (enable enabled) else schedules.row? name := by
  rw [setEnabled, Schedules.row?_update]
  cases hrow : schedules.row? name with
  | none => simp
  | some row => by_cases h : name = name' <;> simp [Schedules.name_of_row? hrow, h]

/-- The guarded `UPDATE` reports a match when it moves the schedule it names, and only then. -/
theorem advance_cases (schedules : Schedules) (now : ℚ) (row : ScheduleRow) (name : String) :
    (∃ cur, schedules.row? name = some cur ∧ SameSlot row cur ∧
      (advance schedules now row).2 = true ∧
      (advance schedules now row).1.row? name = some (moveTo (nextRun now row) cur)) ∨
    ((∀ cur ∈ schedules.row? name, ¬ SameSlot row cur) ∧
      ¬ (row.name = name ∧ (advance schedules now row).2 = true) ∧
      (advance schedules now row).1.row? name = schedules.row? name) := by
  rw [row?_advance]
  have hmoved : (advance schedules now row).2 = true ↔
      ∃ cur ∈ schedules.rows, SameSlot row cur := by
    constructor
    · intro h
      by_contra hnone
      simp only [not_exists, not_and] at hnone
      simp [advance, Table.touched_eq_nil_iff.mpr hnone] at h
    · rintro ⟨cur, hcur, hslot⟩
      have hone := Table.filter_eq_singleton schedules.named hcur hslot
        fun other hother ↦ hother.1.trans hslot.1.symm
      simp [advance, Table.touched, hone]
  by_cases h : ∃ cur, schedules.row? name = some cur ∧ SameSlot row cur
  · obtain ⟨cur, hcur, hslot⟩ := h
    exact .inl ⟨cur, hcur, hslot, hmoved.mpr ⟨cur, Schedules.mem_of_row? hcur, hslot⟩,
      by simp [hcur, hslot]⟩
  · refine .inr ⟨fun cur hcur hslot ↦ h ⟨cur, hcur, hslot⟩, ?_, ?_⟩
    · rintro ⟨rfl, hmatch⟩
      obtain ⟨cur, hcur, hslot⟩ := hmoved.mp hmatch
      exact h ⟨cur, hslot.1 ▸ Schedules.row?_of_mem hcur, hslot⟩
    · cases hcur : schedules.row? name with
      | none => rfl
      | some cur =>
        have hslot : ¬ SameSlot row cur := fun hslot ↦ h ⟨cur, hcur, hslot⟩
        simp [hslot]

/-- After an accepted `add` the schedule is the one it describes; the others are as they were. -/
theorem row?_add {schedules : Schedules} {args : AddArgs} (check : 0 < args.intervalS)
    (name : String) : (add schedules args).1.row? name =
      if name = args.name then some args.row else schedules.row? name := by
  rw [add, dif_pos check]
  by_cases h : ∃ row ∈ schedules.rows, row.name = args.name
  · rw [dif_pos h, Schedules.row?_update]
    by_cases hname : name = args.name
    · obtain ⟨row, hrow, hrowName⟩ := h
      rw [if_pos hname, hname, ← hrowName, Schedules.row?_of_mem hrow]
      simp [AddArgs.replace, AddArgs.row, hrowName]
    · rw [if_neg hname]
      cases hrow : schedules.row? name with
      | none => rfl
      | some row =>
        have hne : row.name ≠ args.name := Schedules.name_of_row? hrow ▸ hname
        simp [hne]
  · rw [dif_neg h, Schedules.row?_append]
    rfl

theorem add_ok {schedules : Schedules} {args : AddArgs} (check : 0 < args.intervalS) :
    (add schedules args).2 = .ok () := by
  rw [add, dif_pos check]
  split_ifs <;> rfl

theorem add_rejected {schedules : Schedules} {args : AddArgs} (check : ¬ 0 < args.intervalS) :
    add schedules args = (schedules, .error .integrityError) := dif_neg check

theorem row?_remove (schedules : Schedules) (name' name : String) :
    (remove schedules name').1.row? name =
      if name = name' then none else schedules.row? name := by
  rw [remove, Schedules.row?_delete]
  cases hrow : schedules.row? name with
  | none => simp
  | some row =>
    have hname := Schedules.name_of_row? hrow
    by_cases h : name = name' <;> simp [Option.filter, hname, h]

end Relay.Scheduler
