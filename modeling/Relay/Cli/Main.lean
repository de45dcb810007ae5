import Relay.System.WholeCalls
import Relay.Queue.Counts
import Mathlib.Data.String.Defs

/-!
# The command line

`main` in `cli.py`, from the parsed arguments on: each command is one call on the database, or the
one `SELECT` of `dead list`, and prints what it answers. `relay work` is a `Worker.run`, which is in
`System.WorkerLoop`. `repr` and `timeText` stand for the rendering of strings and of floats and are
arbitrary.

Each command is a process of its own, so a session is a list of commands with the times they read.
Its statements are steps of the system (`run_main`, `run_session`): whatever holds of the
interleaved runs of the system holds when some of their calls come from the command line. A command
raises only when a schedule is added with an interval that is not positive (`main_ok`).
-/

set_option autoImplicit false
set_option relaxedAutoImplicit false

namespace Relay.Cli

open Foundations Store Queue Scheduler Workers Relay.System

/-- The arguments of `relay enqueue`, with their defaults. The payload is given as the text that
`json.dumps` makes of it. -/
structure EnqueueOptions where
  kind : String
  payload : String := "\x7b\x7d"
  priority : ℤ := 0
  maxAttempts : ℤ := 5
  delay : ℚ := 0
  key : Option String := none
deriving DecidableEq, Repr

/-- The arguments of `relay schedule add`, with their defaults. -/
structure ScheduleOptions where
  name : String
  kind : String
  payload : String := "\x7b\x7d"
  interval : ℚ
deriving DecidableEq, Repr

/-- The commands that make one call. -/
inductive Command
  | enqueue (options : EnqueueOptions)
  | stats
  | reap
  | deadList
  | deadRequeue (jobId : Option ℕ)
  | scheduleAdd (options : ScheduleOptions)
  | scheduleList
  | scheduleRm (name : String)
  | scheduleTick
deriving DecidableEq, Repr

/-- The lines a command prints and the code it returns. -/
structure Result where
  stdout : List String := []
  stderr : List String := []
  code : ℕ := 0
deriving DecidableEq, Repr

/-- `print(n)`. -/
def Result.number (n : ℕ) : Result := { stdout := [toString n] }

/-- The call of `relay enqueue`. -/
def EnqueueOptions.args (options : EnqueueOptions) (now : ℚ) : EnqueueArgs ℚ where
  kind := options.kind
  payload := options.payload
  priority := options.priority
  maxAttempts := options.maxAttempts
  delayS := options.delay
  idempotencyKey := options.key
  now := now

/-- The call of `relay schedule add`. -/
def ScheduleOptions.args (options : ScheduleOptions) (now : ℚ) : AddArgs where
  name := options.name
  kind := options.kind
  payload := options.payload
  intervalS := options.interval
  now := now

/-- `queue.stats().items()`. -/
def items (stats : Stats) : List (String × ℕ) :=
  [("queued", stats.queued), ("leased", stats.leased), ("done", stats.done), ("dead", stats.dead),
    ("ready", stats.ready)]

/-- A line of `relay stats`. -/
def statLine (item : String × ℕ) : String :=
  String.leftpad 7 ' ' item.1 ++ "  " ++ toString item.2

section DeadList

variable {τ : Type*}

/-- `ORDER BY id`. -/
def IdOrder (a b : JobRow τ) : Prop := a.id ≤ b.id

instance : DecidableRel (IdOrder : JobRow τ → JobRow τ → Prop) :=
  fun a b ↦ inferInstanceAs (Decidable (a.id ≤ b.id))

instance : Std.Total (IdOrder : JobRow τ → JobRow τ → Prop) where
  total a b := le_total a.id b.id

instance : IsTrans (JobRow τ) IdOrder where
  trans _ _ _ hab hbc := Nat.le_trans hab hbc

/-- `SELECT … FROM jobs WHERE status = 'dead' ORDER BY id`. -/
def deadRows (jobs : Jobs τ) : List (JobRow τ) :=
  Table.selectOrdered IdOrder (fun row ↦ row.status = .dead) jobs.rows

end DeadList

/-- A line of `relay dead list`. -/
def deadLine (id : ℕ) (kind : String) (attempts : ℕ) (lastError : Option String) : String :=
  toString id ++ "  " ++ kind ++ "  attempts=" ++ toString attempts ++ "  " ++
    lastError.getD "None"

/-- A line of `relay schedule list`. -/
def scheduleLine (timeText : ℚ → String) (row : ScheduleRow) : String :=
  row.name ++ "  " ++ row.kind ++ "  every " ++ timeText row.intervalS ++ "s  [" ++
    (if row.enabled then "on" else "off") ++ "]"

variable (timeText : ℚ → String) (repr : String → String)

/-- `main`, for a command that makes one call at time `now`. -/
def main (db : Database) (now : ℚ) : Command → Database × Except PyError Result
  | .enqueue options =>
    ({ db with jobs := (enqueue db.jobs (options.args now)).1 },
      (enqueue db.jobs (options.args now)).2.map .number)
  | .stats => (db, .ok { stdout := (items (stats db.jobs now)).map statLine })
  | .reap =>
    ({ db with jobs := (releaseExpired db.jobs now).1 },
      .ok (.number (releaseExpired db.jobs now).2))
  | .deadList =>
    (db, .ok
      { stdout := (deadRows db.jobs).map fun row ↦
          deadLine row.id row.kind row.attempts row.lastError })
  | .deadRequeue jobId =>
    ({ db with jobs := (requeueDead db.jobs jobId now).1 },
      .ok (.number (requeueDead db.jobs jobId now).2))
  | .scheduleAdd options =>
    ({ db with schedules := (add db.schedules (options.args now)).1 },
      (add db.schedules (options.args now)).2.map fun _ ↦ {})
  | .scheduleList =>
    (db, .ok { stdout := (Scheduler.list db.schedules).map (scheduleLine timeText) })
  | .scheduleRm name =>
    ({ db with schedules := (remove db.schedules name).1 },
      if (remove db.schedules name).2 then .ok {}
      else .ok { stderr := ["no schedule named " ++ repr name], code := 1 })
  | .scheduleTick => ((tick timeText db now).1, (tick timeText db now).2.map .number)

/-- Commands one after the other, each a process of its own with its own time. -/
def session (db : Database) : List (ℚ × Command) → Database × List (Except PyError Result)
  | [] => (db, [])
  | (now, command) :: rest =>
    let (db, result) := main timeText repr db now command
    let (db, results) := session db rest
    (db, result :: results)

variable {s : State}

/-- The statements of a command are steps of the system, and of no call but its own. -/
theorem run_main (now : ℚ) (command : Command) {i : ℕ} (hfresh : s.tasks i = none) :
    ∃ es t, Run (System.Step timeText) s es t ∧ t.db = (main timeText repr s.db now command).1 ∧
      ∀ k, k ≠ i → t.tasks k = s.tasks k := by
  have howned : ∀ {es t}, Run (OwnStep timeText i) s es t →
      Run (System.Step timeText) s es t ∧ ∀ k, k ≠ i → t.tasks k = s.tasks k := by
    intro es t hrun
    have hall := Run.throughout_label_iff.mp hrun
    refine ⟨hall.1, fun k hk ↦ ?_⟩
    refine hall.1.view_of_labels (fun e ↦ e.task? = some i) (fun t ↦ t.tasks k) ?_ hall.2
    intro t e t' he hstep
    exact hstep.tasks_eq (he ▸ fun hik ↦ hk (Option.some.inj hik).symm)
  cases command with
  | enqueue options =>
    obtain ⟨es, t, id, hrun, -, -, -, hdb⟩ := run_enqueue timeText (options.args now) hfresh
    exact ⟨es, t, (howned hrun).1, hdb, (howned hrun).2⟩
  | stats => exact ⟨[], s, .nil s, rfl, fun _ _ ↦ rfl⟩
  | reap =>
    exact ⟨_, _, .single (.call s (.releaseExpired now) trivial), rfl, fun _ _ ↦ rfl⟩
  | deadList => exact ⟨[], s, .nil s, rfl, fun _ _ ↦ rfl⟩
  | deadRequeue jobId =>
    exact ⟨_, _, .single (.call s (.requeueDead jobId now) trivial), rfl, fun _ _ ↦ rfl⟩
  | scheduleAdd options =>
    exact ⟨_, _, .single (.add s (options.args now)), rfl, fun _ _ ↦ rfl⟩
  | scheduleList => exact ⟨[], s, .nil s, rfl, fun _ _ ↦ rfl⟩
  | scheduleRm name => exact ⟨_, _, .single (.remove s name), rfl, fun _ _ ↦ rfl⟩
  | scheduleTick =>
    obtain ⟨es, t, hrun, -, hfire⟩ := run_tick timeText hfresh (.refl (dueRows s.db.schedules now))
    refine ⟨es, t, (howned hrun).1, ?_, (howned hrun).2⟩
    exact (congrArg Prod.fst hfire).symm

/-- A session is a run of the system, whatever other calls are in progress. -/
theorem run_session (commands : List (ℚ × Command)) {n : ℕ}
    (hfresh : ∀ k, n ≤ k → s.tasks k = none) :
    ∃ es t, Run (System.Step timeText) s es t ∧ t.db = (session timeText repr s.db commands).1 := by
  induction commands generalizing s n with
  | nil => exact ⟨[], s, .nil s, rfl⟩
  | cons first rest ih =>
    obtain ⟨now, command⟩ := first
    obtain ⟨es, t, hrun, hdb, htasks⟩ := run_main timeText repr now command (hfresh n le_rfl)
    have hlater : ∀ k, n + 1 ≤ k → t.tasks k = none := fun k hk ↦
      (htasks k (by omega)).trans (hfresh k (by omega))
    obtain ⟨fs, u, hrest, hdb'⟩ := ih hlater
    refine ⟨es ++ fs, u, hrun.append hrest, ?_⟩
    rw [hdb', hdb]
    rfl

/-- A command raises only for an interval that fails the `CHECK` of the schedules table. -/
theorem main_ok (db : Database) (now : ℚ) {command : Command}
    (hinterval : ∀ options, command = .scheduleAdd options → 0 < options.interval) :
    ∃ result, (main timeText repr db now command).2 = .ok result := by
  cases command with
  | enqueue options =>
    obtain ⟨id, henqueue, -⟩ := enqueue_eq db.jobs (options.args now)
    exact ⟨.number id, by rw [main, henqueue]; rfl⟩
  | scheduleAdd options =>
    have hcheck : 0 < (options.args now).intervalS := hinterval options rfl
    refine ⟨{}, ?_⟩
    simp only [main, add, hcheck, dif_pos]
    split <;> rfl
  | scheduleRm name =>
    simp only [main]
    split
    · exact ⟨_, rfl⟩
    · exact ⟨_, rfl⟩
  | scheduleTick =>
    obtain ⟨es, t, -, -, hfire⟩ := run_tick timeText (s := .start db) (i := 0) rfl
      (.refl (dueRows db.schedules now))
    have hanswer : (tick timeText db now).2 = .ok (dueRows db.schedules now).length :=
      congrArg Prod.snd hfire
    refine ⟨.number (dueRows db.schedules now).length, ?_⟩
    rw [main, hanswer]
    rfl
  | _ => exact ⟨_, rfl⟩

end Relay.Cli
