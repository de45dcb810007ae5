import Relay.System.Ticks
import Relay.System.Execution

/-!
# Replacing a schedule

The key of a slot holds the name and the time, and the guard of an `UPDATE` the name and
`next_run`. Neither holds the version of the schedule. So a schedule that is replaced under the same
name can take over slots its old version has fired, and then its own job is never made
(`readdedSchedule_loses_run`); and an `UPDATE` can move a schedule that was replaced after it was
read. These are the only ways: when no tick meets a job of another version under its key, and no
tick moves another version than it read, every slot a schedule leaves has a job of that schedule,
and the schedule moves by whole intervals of its own (`replacement_kept`).
-/

set_option autoImplicit false
set_option relaxedAutoImplicit false

namespace Relay.System

open Foundations Store Queue Scheduler Workers

/-- The job of the slot a row is at, with the kind and the payload of the row. -/
def HasSlotJob (timeText : ℚ → String) (jobs : Jobs ℚ) (row : ScheduleRow) : Prop :=
  ∃ job ∈ jobs.rows, job.idempotencyKey = some (slotKey timeText row.name row.nextRun) ∧
    job.kind = row.kind ∧ job.payload = row.payload

instance (timeText : ℚ → String) (jobs : Jobs ℚ) (row : ScheduleRow) :
    Decidable (HasSlotJob timeText jobs row) :=
  inferInstanceAs (Decidable (∃ job ∈ jobs.rows, _))

/-- When the step is the `UPDATE` of a tick and moves a schedule, the job of the slot it leaves is
there, with the kind and the payload of that schedule, and the schedule moves by whole intervals of
its own, at least one. -/
def Faithful (timeText : ℚ → String) (before : State) : Event → State → Prop
  | .tickUpdate .., after => ∀ name, ∀ old ∈ before.db.schedules.row? name,
      ∀ new ∈ after.db.schedules.row? name, old.nextRun ≠ new.nextRun →
        HasSlotJob timeText before.db.jobs old ∧
          ∃ n : ℕ, 1 ≤ n ∧ new.nextRun = old.nextRun + n * old.intervalS
  | _, _ => True

/-- Two rows of one name that stand for one version of the schedule. -/
def SameVersion (row cur : ScheduleRow) : Prop :=
  cur.kind = row.kind ∧ cur.payload = row.payload ∧ cur.intervalS = row.intervalS

instance (row cur : ScheduleRow) : Decidable (SameVersion row cur) :=
  inferInstanceAs (Decidable (_ ∧ _ ∧ _))

/-- The step does not mix versions of a schedule. A job that already has the key of an `enqueue` of
a tick was made from the same kind and payload, and a schedule that an `UPDATE` finds at the slot
it read is the version it read. -/
def KeepsVersions (before : State) : Event → State → Prop
  | .tickInsert _ row args _, _ => ∀ job ∈ before.db.jobs.rows,
      job.idempotencyKey = args.idempotencyKey → job.kind = row.kind ∧ job.payload = row.payload
  | .tickUpdate _ _ row _, _ => ∀ cur ∈ before.db.schedules.row? row.name,
      cur.nextRun = row.nextRun → SameVersion row cur
  | _, _ => True

instance (before : State) :
    (e : Event) → (after : State) → Decidable (KeepsVersions before e after)
  | .tickInsert .., _ => inferInstanceAs (Decidable (∀ job ∈ before.db.jobs.rows, _))
  | .tickUpdate _ _ row _, _ =>
    inferInstanceAs (Decidable (∀ cur ∈ before.db.schedules.row? row.name, _))
  | .call _, _ | .enqueue .., _ | .lookup .., _ | .add .., _ | .remove .., _ | .setEnabled .., _
  | .tickSelect .., _ | .tickLookup .., _ | .claim .., _ | .handled .., _ | .settle .., _
  | .raised .., _ => .isTrue trivial

/-- The payload of a row is one that `add` writes, so `tick` passes it on as it is. -/
def Normalized (row : ScheduleRow) : Prop := dumpsOrEmpty row.payload = row.payload

variable {timeText : ℚ → String} {s t : State} {e : Event} {es : List Event}

theorem Step.hasSlotJob (h : Step timeText s e t) {row : ScheduleRow}
    (hjob : HasSlotJob timeText s.db.jobs row) : HasSlotJob timeText t.db.jobs row := by
  obtain ⟨job, hmem, hkey, hkind, hpayload⟩ := hjob
  obtain ⟨job', hjob', hticket⟩ := h.ticket (Jobs.row?_of_mem hmem)
  refine ⟨job', Jobs.mem_of_row? hjob', ?_, ?_, ?_⟩
  · exact (congrArg Ticket.idempotencyKey hticket).trans hkey
  · exact (congrArg Ticket.kind hticket).trans hkind
  · exact (congrArg Ticket.payload hticket).trans hpayload

/-- After the `INSERT` of a tick that keeps versions, the job of the slot is there. -/
theorem Step.hasSlotJob_of_tickInsert {i : ℕ} {now : ℚ} {row : ScheduleRow} {id : Option ℕ}
    (h : Step timeText s (.tickInsert i row (slotArgs timeText now row) id) t)
    (hkeeps : KeepsVersions s (.tickInsert i row (slotArgs timeText now row) id) t)
    (hnormal : Normalized row) : HasSlotJob timeText t.db.jobs row := by
  have hstep := h.queue_step.2 _ rfl
  obtain ⟨hjobs, hreply⟩ := Prod.mk.inj hstep
  have hid := Reply.inserted.inj hreply
  cases id with
  | none =>
    obtain ⟨key, hkey, job, hjob, hjobKey⟩ := insert_none_iff.mp hid
    refine h.hasSlotJob ⟨job, hjob, hjobKey.trans hkey.symm, ?_⟩
    exact hkeeps job hjob (hjobKey.trans hkey.symm)
  | some id =>
    obtain ⟨-, hrow, -⟩ := insert_some hid
    rw [hjobs] at hrow
    exact ⟨_, Jobs.mem_of_row? hrow, rfl, rfl, hnormal⟩

/-- What a tick in progress has in hand when no versions are mixed. -/
structure TickFaithful (timeText : ℚ → String) (jobs : Jobs ℚ) (tick : Tick) : Prop where
  normal : ∀ row ∈ tick.due, Normalized row
  job : tick.stage ≠ .insert → ∀ row ∈ tick.rest.head?, HasSlotJob timeText jobs row

/-- Every schedule has a normal payload, since `add` writes it so. -/
theorem Step.normalized (h : Step timeText s e t)
    (hnormal : ∀ name, ∀ row ∈ s.db.schedules.row? name, Normalized row) :
    ∀ name, ∀ row ∈ t.db.schedules.row? name, Normalized row := by
  intro name row hrow
  have hstep := h.scheduleStep name
  have hbefore := hnormal name
  rw [Option.mem_def.mp hrow] at hstep
  generalize s.db.schedules.row? name = before at hstep hbefore
  generalize hafter : some row = after at hstep
  cases hstep with
  | onAdd args _ _ _ =>
    obtain rfl := Option.some.inj hafter
    exact dumpsOrEmpty_idem args.payload
  | onRemove => cases hafter
  | onSetEnabled enabled found =>
    obtain ⟨old, hold, rfl⟩ := Option.map_eq_some_iff.mp hafter.symm
    exact hbefore old hold
  | onAdvance i now read cur _ _ =>
    obtain rfl := Option.some.inj hafter
    exact hbefore cur rfl
  | untouched _ _ _ => exact hbefore row hafter.symm

/-- The invariant of runs that keep versions. -/
structure VersionsKept (timeText : ℚ → String) (s : State) : Prop where
  normal : ∀ name, ∀ row ∈ s.db.schedules.row? name, Normalized row
  sound : ∀ i tick, s.tasks i = some (.tick tick) → TickSound timeText s.db.jobs tick
  faithful : ∀ i tick, s.tasks i = some (.tick tick) → TickFaithful timeText s.db.jobs tick

theorem Step.tickFaithful (h : Step timeText s e t) (hkeeps : KeepsVersions s e t)
    (hinv : VersionsKept timeText s) :
    ∀ i tick, t.tasks i = some (.tick tick) → TickFaithful timeText t.db.jobs tick := by
  intro i tick htask
  have hstep := h.taskStep i
  have hbefore := hinv.faithful i
  have hsound := hinv.sound i
  rw [htask] at hstep
  generalize s.tasks i = before at hstep hbefore hsound
  cases hstep with
  | tickSelect now due =>
    refine ⟨fun row hrow ↦ ?_, fun hstage ↦ absurd rfl hstage⟩
    exact hinv.normal row.name row (Schedules.row?_of_mem (h.due_of_tickSelect row hrow).1)
  | tickInserted now due row rest id =>
    obtain ⟨hnormal, -⟩ := hbefore _ rfl
    have hdue : row ∈ due := (hsound _ rfl).rest.subset (List.mem_cons_self ..)
    refine ⟨hnormal, ?_⟩
    rintro - _ ⟨⟩
    exact h.hasSlotJob_of_tickInsert hkeeps (hnormal row hdue)
  | tickConflict now due row rest =>
    obtain ⟨hnormal, -⟩ := hbefore _ rfl
    have hdue : row ∈ due := (hsound _ rfl).rest.subset (List.mem_cons_self ..)
    refine ⟨hnormal, ?_⟩
    rintro - _ ⟨⟩
    exact h.hasSlotJob_of_tickInsert hkeeps (hnormal row hdue)
  | tickFound now due row rest id =>
    obtain ⟨hnormal, hjob⟩ := hbefore _ rfl
    exact ⟨hnormal, fun _ row hrow ↦ h.hasSlotJob (hjob nofun row hrow)⟩
  | tickUpdate now due row rest moved =>
    obtain ⟨hnormal, -⟩ := hbefore _ rfl
    exact ⟨hnormal, fun hstage ↦ absurd rfl hstage⟩
  | other _ _ hi =>
    obtain ⟨hnormal, hjob⟩ := hbefore _ rfl
    exact ⟨hnormal, fun hstage row hrow ↦ h.hasSlotJob (hjob hstage row hrow)⟩

theorem VersionsKept.step (hinv : VersionsKept timeText s) (h : Step timeText s e t)
    (hkeeps : KeepsVersions s e t) : VersionsKept timeText t where
  normal := h.normalized hinv.normal
  sound := h.tickSound hinv.sound
  faithful := h.tickFaithful hkeeps hinv

/-- An `UPDATE` that keeps versions is faithful. -/
theorem VersionsKept.updates_faithfully (hinv : VersionsKept timeText s) (h : Step timeText s e t)
    (hkeeps : KeepsVersions s e t) : Faithful timeText s e t := by
  cases e with
  | tickUpdate i now row moved =>
    intro name old hold new hnew hne
    obtain ⟨due, rest, htask, -⟩ := h.task_of_tickUpdate
    obtain ⟨hdue, hrest, -⟩ := hinv.sound i _ htask
    obtain ⟨hpos, -, hle⟩ := hdue row (hrest.subset (List.mem_cons_self ..))
    have hjob := (hinv.faithful i _ htask).job nofun row rfl
    have hstep := h.scheduleStep name
    rw [Option.mem_def.mp hold, Option.mem_def.mp hnew] at hstep
    cases hstep with
    | onAdvance _ _ _ _ hname hslot =>
      obtain ⟨hkind, hpayload, hinterval⟩ :=
        hkeeps old (hslot.1.symm.trans hname ▸ hold) hslot.2
      obtain ⟨n, hone, hn⟩ := Grid.exists_nat_nextPoint hpos hle
      refine ⟨?_, n, hone, ?_⟩
      · rw [HasSlotJob, hslot.1, hslot.2, hkind, hpayload]
        exact hjob
      · rw [hslot.2, hinterval]
        exact hn
    | untouched _ _ _ => exact absurd rfl hne
  | _ => trivial

/-- Replacing a schedule is not lost, unless a tick mixes versions. In every run in which no tick
finds a job of another kind or payload under the key it enqueues, and no tick moves another version
of a schedule than it read, each `UPDATE` that moves a schedule away from a slot leaves behind a job
of that slot with the kind and the payload of the schedule, and moves it by whole intervals of the
schedule, at least one. -/
theorem replacement_kept
    (hrun : Run (Throughout (Step timeText) KeepsVersions) (.start .empty) es s) :
    Run (Throughout (Step timeText) (Faithful timeText)) (.start .empty) es s := by
  refine hrun.mono_of_invariant (VersionsKept timeText)
    (fun _ _ _ hinv h ↦ hinv.step h.1 h.2)
    (fun _ _ _ hinv h ↦ ⟨h.1, hinv.updates_faithfully h.1 h.2⟩) ?_
  exact ⟨fun _ _ h ↦ (nomatch h), fun _ _ h ↦ (nomatch h), fun _ _ h ↦ (nomatch h)⟩

/-- A schedule that is replaced with a later start before its first run. -/
def replacedSchedule : List Action :=
  [.add ⟨"report", "email", "null", 10, some 0, 0⟩,
    .add ⟨"report", "sms", "null", 10, some 4, 0⟩, .tick 0 5, .resume 0, .resume 0]

theorem replacement_kept_replacedSchedule :
    Run (Throughout (Step wholeSeconds) (Faithful wholeSeconds)) (.start .empty)
      (runGuarded wholeSeconds KeepsVersions (.start .empty) replacedSchedule).1
      (runGuarded wholeSeconds KeepsVersions (.start .empty) replacedSchedule).2 :=
  replacement_kept (run_runGuarded wholeSeconds KeepsVersions (.start .empty) replacedSchedule)

/-- A schedule whose slot at 0 has fired is replaced by one with another kind, which starts at the
same time and is due. -/
def readdedSchedule : List Action :=
  [.add ⟨"report", "email", "null", 10, some 0, 0⟩, .tick 0 5, .resume 0, .resume 0,
    .add ⟨"report", "sms", "null", 10, some 0, 5⟩, .tick 1 5, .resume 1, .resume 1]

/-- The `UPDATE` that follows leaves the slot, and there is no job of the new kind. -/
theorem readdedSchedule_loses_run :
    Run (Step wholeSeconds) (.start .empty)
      (runActions wholeSeconds (.start .empty) readdedSchedule).1
      (runActions wholeSeconds (.start .empty) readdedSchedule).2 ∧
    ∃ moved t, Step wholeSeconds (runActions wholeSeconds (.start .empty) readdedSchedule).2
        (.tickUpdate 1 5 ⟨"report", "sms", "\x7b\x7d", 10, 0, true⟩ moved) t ∧
      ¬ Faithful wholeSeconds (runActions wholeSeconds (.start .empty) readdedSchedule).2
        (.tickUpdate 1 5 ⟨"report", "sms", "\x7b\x7d", 10, 0, true⟩ moved) t := by
  refine ⟨run_runActions _ _ _, _, _, .tickUpdate _ 1 5
    [⟨"report", "sms", "\x7b\x7d", 10, 0, true⟩] _ [] (by decide +kernel), fun hfaithful ↦ ?_⟩
  refine absurd (hfaithful "report" ⟨"report", "sms", "\x7b\x7d", 10, 0, true⟩ ?_
    ⟨"report", "sms", "\x7b\x7d", 10, 10, true⟩ ?_ ?_).1 ?_
  all_goals decide +kernel

end Relay.System
