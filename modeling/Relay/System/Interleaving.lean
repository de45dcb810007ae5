import Relay.Queue.RowInvariants
import Relay.Scheduler.Operations
import Relay.Workers.Operations
import Mathlib.Logic.Function.Basic

/-!
# Processes on one database

`State` is the database with the calls in progress, and `Step` what can happen next: one statement
of one call, or the start of a call. `enqueue`, `tick` and `run_once` are more than one statement,
so a call of them is a `Task` that remembers what it has read and where it stands; every other
method is a single statement. Any number of tasks may be in progress, each with its own time, and
their steps come in any order. A process that stops is one whose task takes no further step.

A label (`Event`) says which statement ran and what it answered, so the labels of a run are its
history. `run_queue` reads off it the history of the jobs table: every run of the system is a run
of `Queue.Step` on it, and the laws of the queue carry over. `ScheduleStep` says what a step can do
to one schedule, as `Queue.RowStep` does for one job.
-/

set_option autoImplicit false
set_option relaxedAutoImplicit false

namespace Relay.System

open Foundations Store Queue Scheduler Workers

/-! ### Tasks -/

/-- Where a `tick` is in the body of its loop: before the `INSERT` of the `enqueue`, before its
`SELECT`, or before the `UPDATE` of the schedule. -/
inductive Stage
  | insert
  | select
  | update
deriving DecidableEq, Repr

/-- A `tick` after its `SELECT`: its time, the rows it read, and those it has not finished. -/
structure Tick where
  now : ℚ
  due : List ScheduleRow
  rest : List ScheduleRow
  stage : Stage
deriving DecidableEq, Repr

/-- A `run_once` after its claim: the job it was given, the time it read before the claim, and the
outcome of the handler once it is over. -/
structure Delivery where
  worker : Worker
  job : JobRow ℚ
  now : ℚ
  outcome : Option Outcome
deriving DecidableEq, Repr

/-- A call in progress. A producer's `enqueue` is in progress only between its two statements. -/
inductive Task
  | enqueue (args : EnqueueArgs ℚ)
  | tick (tick : Tick)
  | delivery (delivery : Delivery)
  | finished
deriving DecidableEq, Repr

/-- `enqueue` returns when its `INSERT` took effect, and goes on to its `SELECT` when not. -/
def Task.ofInsert (args : EnqueueArgs ℚ) : Option ℕ → Task
  | some _ => .finished
  | none => .enqueue args

/-- The same `INSERT` inside `tick`. -/
def Task.ofTickInsert (tick : Tick) : Option ℕ → Task
  | some _ => .tick { tick with stage := .update }
  | none => .tick { tick with stage := .select }

/-- The `SELECT` inside `tick`; without a row, indexing it raises and the tick is over. -/
def Task.ofTickLookup (tick : Tick) : Option ℕ → Task
  | some _ => .tick { tick with stage := .update }
  | none => .finished

/-- `run_once` returns when nothing is ready, and runs the handler when it was given a job. -/
def Task.ofClaim (worker : Worker) (now : ℚ) : Option (JobRow ℚ) → Task
  | some job => .delivery ⟨worker, job, now, none⟩
  | none => .finished

/-- The database and the calls in progress, under the number each call was given. -/
structure State where
  db : Database
  tasks : ℕ → Option Task

namespace State

def start (db : Database) : State := ⟨db, fun _ ↦ none⟩

def setJobs (s : State) (jobs : Jobs ℚ) : State := { s with db := { s.db with jobs := jobs } }

def setSchedules (s : State) (schedules : Schedules) : State :=
  { s with db := { s.db with schedules := schedules } }

def setTask (s : State) (i : ℕ) (task : Task) : State :=
  { s with tasks := Function.update s.tasks i (some task) }

variable (s : State) (jobs : Jobs ℚ) (schedules : Schedules) (i : ℕ) (task : Task)

@[simp] theorem jobs_setJobs : (s.setJobs jobs).db.jobs = jobs := rfl
@[simp] theorem schedules_setJobs : (s.setJobs jobs).db.schedules = s.db.schedules := rfl
@[simp] theorem tasks_setJobs : (s.setJobs jobs).tasks = s.tasks := rfl
@[simp] theorem jobs_setSchedules : (s.setSchedules schedules).db.jobs = s.db.jobs := rfl
@[simp] theorem schedules_setSchedules : (s.setSchedules schedules).db.schedules = schedules := rfl
@[simp] theorem tasks_setSchedules : (s.setSchedules schedules).tasks = s.tasks := rfl
@[simp] theorem db_setTask : (s.setTask i task).db = s.db := rfl

@[simp] theorem tasks_setTask (k : ℕ) :
    (s.setTask i task).tasks k = if k = i then some task else s.tasks k :=
  Function.update_apply s.tasks i (some task) k

end State

/-! ### Steps -/

/-- The statements that are a method of their own: all but the two of `enqueue`. -/
def Standalone : Statement ℚ → Prop
  | .insert _ => False
  | .selectKey _ => False
  | _ => True

/-- One entry of the history of the system. The first number names the call. -/
inductive Event
  | call (entry : Queue.Event ℚ)
  | enqueue (task : ℕ) (args : EnqueueArgs ℚ) (id : Option ℕ)
  | lookup (task : ℕ) (key : Option String) (id : Option ℕ)
  | add (args : AddArgs) (result : Except PyError Unit)
  | remove (name : String) (removed : Bool)
  | setEnabled (name : String) (enabled found : Bool)
  | tickSelect (task : ℕ) (now : ℚ) (due : List ScheduleRow)
  | tickInsert (task : ℕ) (row : ScheduleRow) (args : EnqueueArgs ℚ) (id : Option ℕ)
  | tickLookup (task : ℕ) (row : ScheduleRow) (key : Option String) (id : Option ℕ)
  | tickUpdate (task : ℕ) (now : ℚ) (row : ScheduleRow) (moved : Bool)
  | claim (task : ℕ) (worker : Worker) (now : ℚ) (job : Option (JobRow ℚ))
  | handled (task : ℕ) (outcome : Outcome)
  | settle (task : ℕ) (delivery : Delivery) (kind : SettleKind ℚ) (result : Except PyError Unit)
  | raised (task : ℕ) (delivery : Delivery) (error : PyError)
deriving DecidableEq

/-- What a step does on the jobs table, if it is a statement on it. -/
def Event.queue? : Event → Option (Queue.Event ℚ)
  | .call entry => some entry
  | .enqueue _ args id => some ⟨.insert args, .inserted id⟩
  | .lookup _ key id => some ⟨.selectKey key, .selected id⟩
  | .tickInsert _ _ args id => some ⟨.insert args, .inserted id⟩
  | .tickLookup _ _ key id => some ⟨.selectKey key, .selected id⟩
  | .claim _ worker now job =>
    some ⟨.claim (some worker.workerId) (some worker.handlers) worker.leaseS now, .claimed job⟩
  | .settle _ delivery kind result =>
    some ⟨.settle kind delivery.job.id (some delivery.worker.workerId) delivery.now,
      .settled result⟩
  | _ => none

/-- One step of the system. -/
inductive Step (timeText : ℚ → String) : State → Event → State → Prop
  | call (s : State) (statement : Statement ℚ) (hsingle : Standalone statement) :
      Step timeText s (.call ⟨statement, (perform s.db.jobs statement).2⟩)
        (s.setJobs (perform s.db.jobs statement).1)
  | enqueue (s : State) (i : ℕ) (args : EnqueueArgs ℚ) (hfresh : s.tasks i = none) :
      Step timeText s (.enqueue i args (insert s.db.jobs args).2)
        ((s.setJobs (insert s.db.jobs args).1).setTask i
          (.ofInsert args (insert s.db.jobs args).2))
  | lookup (s : State) (i : ℕ) (args : EnqueueArgs ℚ) (htask : s.tasks i = some (.enqueue args)) :
      Step timeText s (.lookup i args.idempotencyKey (selectKey s.db.jobs args.idempotencyKey))
        (s.setTask i .finished)
  | add (s : State) (args : AddArgs) :
      Step timeText s (.add args (add s.db.schedules args).2)
        (s.setSchedules (add s.db.schedules args).1)
  | remove (s : State) (name : String) :
      Step timeText s (.remove name (remove s.db.schedules name).2)
        (s.setSchedules (remove s.db.schedules name).1)
  | setEnabled (s : State) (name : String) (enabled : Bool) :
      Step timeText s (.setEnabled name enabled (setEnabled s.db.schedules name enabled).2)
        (s.setSchedules (setEnabled s.db.schedules name enabled).1)
  -- the `SELECT` has no `ORDER BY`
  | tickSelect (s : State) (i : ℕ) (now : ℚ) (due : List ScheduleRow) (hfresh : s.tasks i = none)
      (hdue : due.Perm (dueRows s.db.schedules now)) :
      Step timeText s (.tickSelect i now due) (s.setTask i (.tick ⟨now, due, due, .insert⟩))
  | tickInsert (s : State) (i : ℕ) (now : ℚ) (due : List ScheduleRow) (row : ScheduleRow)
      (rest : List ScheduleRow)
      (htask : s.tasks i = some (.tick ⟨now, due, row :: rest, .insert⟩)) :
      Step timeText s
        (.tickInsert i row (slotArgs timeText now row)
          (insert s.db.jobs (slotArgs timeText now row)).2)
        ((s.setJobs (insert s.db.jobs (slotArgs timeText now row)).1).setTask i
          (.ofTickInsert ⟨now, due, row :: rest, .insert⟩
            (insert s.db.jobs (slotArgs timeText now row)).2))
  | tickLookup (s : State) (i : ℕ) (now : ℚ) (due : List ScheduleRow) (row : ScheduleRow)
      (rest : List ScheduleRow)
      (htask : s.tasks i = some (.tick ⟨now, due, row :: rest, .select⟩)) :
      Step timeText s
        (.tickLookup i row (slotArgs timeText now row).idempotencyKey
          (selectKey s.db.jobs (slotArgs timeText now row).idempotencyKey))
        (s.setTask i (.ofTickLookup ⟨now, due, row :: rest, .select⟩
          (selectKey s.db.jobs (slotArgs timeText now row).idempotencyKey)))
  | tickUpdate (s : State) (i : ℕ) (now : ℚ) (due : List ScheduleRow) (row : ScheduleRow)
      (rest : List ScheduleRow)
      (htask : s.tasks i = some (.tick ⟨now, due, row :: rest, .update⟩)) :
      Step timeText s (.tickUpdate i now row (advance s.db.schedules now row).2)
        ((s.setSchedules (advance s.db.schedules now row).1).setTask i
          (.tick ⟨now, due, rest, .insert⟩))
  | claim (s : State) (i : ℕ) (worker : Worker) (now : ℚ) (hfresh : s.tasks i = none) :
      Step timeText s (.claim i worker now (claimJob worker s.db.jobs now).2)
        ((s.setJobs (claimJob worker s.db.jobs now).1).setTask i
          (.ofClaim worker now (claimJob worker s.db.jobs now).2))
  | handled (s : State) (i : ℕ) (worker : Worker) (job : JobRow ℚ) (now : ℚ) (outcome : Outcome)
      (htask : s.tasks i = some (.delivery ⟨worker, job, now, none⟩)) :
      Step timeText s (.handled i outcome)
        (s.setTask i (.delivery ⟨worker, job, now, some outcome⟩))
  | settle (s : State) (i : ℕ) (delivery : Delivery) (outcome : Outcome) (kind : SettleKind ℚ)
      (htask : s.tasks i = some (.delivery delivery)) (houtcome : delivery.outcome = some outcome)
      (hkind : settleKind delivery.worker delivery.job outcome = .ok kind) :
      Step timeText s
        (.settle i delivery kind (settle s.db.jobs kind delivery.job.id
          (some delivery.worker.workerId) delivery.now).2)
        ((s.setJobs (settle s.db.jobs kind delivery.job.id (some delivery.worker.workerId)
          delivery.now).1).setTask i .finished)
  | raised (s : State) (i : ℕ) (delivery : Delivery) (outcome : Outcome) (error : PyError)
      (htask : s.tasks i = some (.delivery delivery)) (houtcome : delivery.outcome = some outcome)
      (hkind : settleKind delivery.worker delivery.job outcome = .error error) :
      Step timeText s (.raised i delivery error) (s.setTask i .finished)

variable {timeText : ℚ → String} {s t : State} {e : Event} {es : List Event}

/-! ### One call -/

/-- The call a step belongs to, if the call may go on after it. -/
def Event.task? : Event → Option ℕ
  | .enqueue i .. => some i
  | .lookup i .. => some i
  | .tickSelect i .. => some i
  | .tickInsert i .. => some i
  | .tickLookup i .. => some i
  | .tickUpdate i .. => some i
  | .claim i .. => some i
  | .handled i .. => some i
  | .settle i .. => some i
  | .raised i .. => some i
  | _ => none

/-- What a step can do to call `i`. -/
inductive TaskStep (timeText : ℚ → String) (i : ℕ) : Event → Option Task → Option Task → Prop
  | inserted (args : EnqueueArgs ℚ) (id : ℕ) :
      TaskStep timeText i (.enqueue i args (some id)) none (some .finished)
  | conflict (args : EnqueueArgs ℚ) :
      TaskStep timeText i (.enqueue i args none) none (some (.enqueue args))
  | lookup (args : EnqueueArgs ℚ) (id : Option ℕ) :
      TaskStep timeText i (.lookup i args.idempotencyKey id) (some (.enqueue args)) (some .finished)
  | tickSelect (now : ℚ) (due : List ScheduleRow) :
      TaskStep timeText i (.tickSelect i now due) none (some (.tick ⟨now, due, due, .insert⟩))
  | tickInserted (now : ℚ) (due : List ScheduleRow) (row : ScheduleRow) (rest : List ScheduleRow)
      (id : ℕ) :
      TaskStep timeText i (.tickInsert i row (slotArgs timeText now row) (some id))
        (some (.tick ⟨now, due, row :: rest, .insert⟩))
        (some (.tick ⟨now, due, row :: rest, .update⟩))
  | tickConflict (now : ℚ) (due : List ScheduleRow) (row : ScheduleRow) (rest : List ScheduleRow) :
      TaskStep timeText i (.tickInsert i row (slotArgs timeText now row) none)
        (some (.tick ⟨now, due, row :: rest, .insert⟩))
        (some (.tick ⟨now, due, row :: rest, .select⟩))
  | tickFound (now : ℚ) (due : List ScheduleRow) (row : ScheduleRow) (rest : List ScheduleRow)
      (id : ℕ) :
      TaskStep timeText i
        (.tickLookup i row (slotArgs timeText now row).idempotencyKey (some id))
        (some (.tick ⟨now, due, row :: rest, .select⟩))
        (some (.tick ⟨now, due, row :: rest, .update⟩))
  | tickMissing (now : ℚ) (due : List ScheduleRow) (row : ScheduleRow) (rest : List ScheduleRow) :
      TaskStep timeText i (.tickLookup i row (slotArgs timeText now row).idempotencyKey none)
        (some (.tick ⟨now, due, row :: rest, .select⟩)) (some .finished)
  | tickUpdate (now : ℚ) (due : List ScheduleRow) (row : ScheduleRow) (rest : List ScheduleRow)
      (moved : Bool) :
      TaskStep timeText i (.tickUpdate i now row moved)
        (some (.tick ⟨now, due, row :: rest, .update⟩)) (some (.tick ⟨now, due, rest, .insert⟩))
  | claimed (worker : Worker) (now : ℚ) (job : JobRow ℚ) :
      TaskStep timeText i (.claim i worker now (some job)) none
        (some (.delivery ⟨worker, job, now, none⟩))
  | unclaimed (worker : Worker) (now : ℚ) :
      TaskStep timeText i (.claim i worker now none) none (some .finished)
  | handled (worker : Worker) (job : JobRow ℚ) (now : ℚ) (outcome : Outcome) :
      TaskStep timeText i (.handled i outcome) (some (.delivery ⟨worker, job, now, none⟩))
        (some (.delivery ⟨worker, job, now, some outcome⟩))
  | settle (delivery : Delivery) (outcome : Outcome) (kind : SettleKind ℚ)
      (result : Except PyError Unit) (houtcome : delivery.outcome = some outcome)
      (hkind : settleKind delivery.worker delivery.job outcome = .ok kind) :
      TaskStep timeText i (.settle i delivery kind result) (some (.delivery delivery))
        (some .finished)
  | raised (delivery : Delivery) (error : PyError) :
      TaskStep timeText i (.raised i delivery error) (some (.delivery delivery)) (some .finished)
  | other (e : Event) (task? : Option Task) (hi : e.task? ≠ some i) :
      TaskStep timeText i e task? task?

/-- A step moves no call but its own. -/
theorem Step.tasks_eq (h : Step timeText s e t) {i : ℕ} (hi : e.task? ≠ some i) :
    t.tasks i = s.tasks i := by
  cases h <;> first
    | rfl
    | exact (State.tasks_setTask ..).trans (if_neg fun hik ↦ hi (congrArg some hik.symm))

/-- Every step takes one of these steps on every call. -/
theorem Step.taskStep (h : Step timeText s e t) (i : ℕ) :
    TaskStep timeText i e (s.tasks i) (t.tasks i) := by
  by_cases hi : e.task? = some i
  · cases h
    case enqueue k args hfresh =>
      obtain rfl := Option.some.inj hi
      rw [State.tasks_setTask, if_pos rfl, hfresh]
      cases (insert s.db.jobs args).2 with
      | none => exact .conflict args
      | some id => exact .inserted args id
    case lookup k args htask =>
      obtain rfl := Option.some.inj hi
      rw [State.tasks_setTask, if_pos rfl, htask]
      exact .lookup args _
    case tickSelect k now due hfresh hdue =>
      obtain rfl := Option.some.inj hi
      rw [State.tasks_setTask, if_pos rfl, hfresh]
      exact .tickSelect now due
    case tickInsert k now due row rest htask =>
      obtain rfl := Option.some.inj hi
      rw [State.tasks_setTask, if_pos rfl, htask]
      cases (insert s.db.jobs (slotArgs timeText now row)).2 with
      | none => exact .tickConflict now due row rest
      | some id => exact .tickInserted now due row rest id
    case tickLookup k now due row rest htask =>
      obtain rfl := Option.some.inj hi
      rw [State.tasks_setTask, if_pos rfl, htask]
      cases selectKey s.db.jobs (slotArgs timeText now row).idempotencyKey with
      | none => exact .tickMissing now due row rest
      | some id => exact .tickFound now due row rest id
    case tickUpdate k now due row rest htask =>
      obtain rfl := Option.some.inj hi
      rw [State.tasks_setTask, if_pos rfl, htask]
      exact .tickUpdate now due row rest _
    case claim k worker now hfresh =>
      obtain rfl := Option.some.inj hi
      rw [State.tasks_setTask, if_pos rfl, hfresh]
      cases (claimJob worker s.db.jobs now).2 with
      | none => exact .unclaimed worker now
      | some job => exact .claimed worker now job
    case handled k worker job now outcome htask =>
      obtain rfl := Option.some.inj hi
      rw [State.tasks_setTask, if_pos rfl, htask]
      exact .handled worker job now outcome
    case settle k delivery outcome kind htask houtcome hkind =>
      obtain rfl := Option.some.inj hi
      rw [State.tasks_setTask, if_pos rfl, htask]
      exact .settle delivery outcome kind _ houtcome hkind
    case raised k delivery outcome error htask houtcome hkind =>
      obtain rfl := Option.some.inj hi
      rw [State.tasks_setTask, if_pos rfl, htask]
      exact .raised delivery error
    all_goals cases hi
  · rw [h.tasks_eq hi]
    exact .other e _ hi

/-- A run of the system is, on every call, a run of that call. -/
theorem run_task (h : Run (Step timeText) s es t) (i : ℕ) :
    Run (fun task? e task?' ↦ TaskStep timeText i e task? task?') (s.tasks i) es (t.tasks i) := by
  induction h with
  | nil => exact .nil _
  | cons head _ ih => exact .cons (head.taskStep i) ih

/-! ### The jobs table -/

/-- A step is the statement on the jobs table that its label says, or leaves the table alone. -/
theorem Step.queue_step (h : Step timeText s e t) :
    (e.queue? = none → t.db.jobs = s.db.jobs) ∧
      ∀ entry, e.queue? = some entry → Queue.Step s.db.jobs entry t.db.jobs := by
  cases h
  case call => exact ⟨nofun, by rintro _ ⟨⟩; rfl⟩
  case enqueue => exact ⟨nofun, by rintro _ ⟨⟩; rfl⟩
  case lookup => exact ⟨nofun, by rintro _ ⟨⟩; rfl⟩
  case tickInsert => exact ⟨nofun, by rintro _ ⟨⟩; rfl⟩
  case tickLookup => exact ⟨nofun, by rintro _ ⟨⟩; rfl⟩
  case claim => exact ⟨nofun, by rintro _ ⟨⟩; rfl⟩
  case settle => exact ⟨nofun, by rintro _ ⟨⟩; rfl⟩
  all_goals exact ⟨fun _ ↦ rfl, by simp [Event.queue?]⟩

/-- A statement on the jobs table leaves the schedules alone. -/
theorem Step.schedules_eq (h : Step timeText s e t) {entry : Queue.Event ℚ}
    (hentry : e.queue? = some entry) : t.db.schedules = s.db.schedules := by
  cases h <;> first
    | rfl
    | cases hentry

/-- Every run of the system is, on the jobs table, a run of the queue. -/
theorem run_queue (h : Run (Step timeText) s es t) :
    Run Queue.Step s.db.jobs (es.filterMap Event.queue?) t.db.jobs :=
  h.project (fun s ↦ s.db.jobs) Event.queue? (fun _ _ _ hstep hnone ↦ hstep.queue_step.1 hnone)
    fun _ _ _ entry hstep hsome ↦ hstep.queue_step.2 entry hsome

/-- A row of the jobs table stays in it, with the columns its producer fixed. -/
theorem Step.ticket (h : Step timeText s e t) {j : ℕ} {row : JobRow ℚ}
    (hrow : s.db.jobs.row? j = some row) :
    ∃ row', t.db.jobs.row? j = some row' ∧ row'.ticket = row.ticket :=
  ticket_of_run (run_queue (.single h)) hrow

/-! ### One schedule -/

/-- The step writes or deletes the schedule with a name. -/
def Event.TouchesSchedule (name : String) : Event → Prop
  | .add args result => args.name = name ∧ result = .ok ()
  | .remove name' _ => name' = name
  | .setEnabled name' _ _ => name' = name
  | .tickUpdate _ _ row moved => row.name = name ∧ moved = true
  | _ => False

/-- What a step can do to the schedule with a name. -/
inductive ScheduleStep (name : String) :
    Event → Option ScheduleRow → Option ScheduleRow → Prop
  | onAdd (args : AddArgs) (row? : Option ScheduleRow) (hname : args.name = name)
      (check : 0 < args.intervalS) :
      ScheduleStep name (.add args (.ok ())) row? (some args.row)
  | onRemove (row? : Option ScheduleRow) (removed : Bool) :
      ScheduleStep name (.remove name removed) row? none
  | onSetEnabled (row? : Option ScheduleRow) (enabled found : Bool) :
      ScheduleStep name (.setEnabled name enabled found) row? (row?.map (enable enabled))
  | onAdvance (i : ℕ) (now : ℚ) (row cur : ScheduleRow) (hcur : cur.name = name)
      (hslot : SameSlot row cur) :
      ScheduleStep name (.tickUpdate i now row true) (some cur)
        (some (moveTo (nextRun now row) cur))
  | untouched (e : Event) (row? : Option ScheduleRow) (h : ¬ e.TouchesSchedule name) :
      ScheduleStep name e row? row?

/-- Every step takes one of these steps on every schedule. -/
theorem Step.scheduleStep (h : Step timeText s e t) (name : String) :
    ScheduleStep name e (s.db.schedules.row? name) (t.db.schedules.row? name) := by
  cases h
  case add args =>
    by_cases check : 0 < args.intervalS
    · rw [State.schedules_setSchedules, row?_add check, add_ok check]
      by_cases hname : name = args.name
      · rw [if_pos hname]
        exact .onAdd args _ hname.symm check
      · rw [if_neg hname]
        exact .untouched _ _ fun h ↦ hname h.1.symm
    · rw [State.schedules_setSchedules, add_rejected check]
      exact .untouched _ _ (by simp [Event.TouchesSchedule])
  case remove name' =>
    rw [State.schedules_setSchedules, row?_remove]
    by_cases hname : name = name'
    · rw [if_pos hname, ← hname]
      exact .onRemove _ _
    · rw [if_neg hname]
      exact .untouched _ _ (Ne.symm hname)
  case setEnabled name' enabled =>
    rw [State.schedules_setSchedules, row?_setEnabled]
    by_cases hname : name = name'
    · rw [if_pos hname, ← hname]
      exact .onSetEnabled _ _ _
    · rw [if_neg hname]
      exact .untouched _ _ (Ne.symm hname)
  case tickUpdate i now due row rest htask =>
    rcases advance_cases s.db.schedules now row name with
      ⟨cur, hcur, hslot, hmoved, hnew⟩ | ⟨-, hnot, hnew⟩
    · rw [State.db_setTask, State.schedules_setSchedules, hnew, hcur, hmoved]
      exact .onAdvance i now row cur (Schedules.name_of_row? hcur) hslot
    · rw [State.db_setTask, State.schedules_setSchedules, hnew]
      exact .untouched _ _ hnot
  all_goals exact .untouched _ _ id

end Relay.System
