import Relay.System.Interleaving

/-!
# Running a schedule of processes

`act` computes what an action does: a call that starts or takes its next statement, or a handler
that ends. `step_act` says that it is a step of the system, so `runActions` computes runs.
-/

set_option autoImplicit false
set_option relaxedAutoImplicit false

namespace Relay.System

open Foundations Store Queue Scheduler Workers

/-- Who does the next step. `resume` is the next statement of a call in progress. -/
inductive Action
  | call (statement : Statement ℚ)
  | enqueue (task : ℕ) (args : EnqueueArgs ℚ)
  | add (args : AddArgs)
  | remove (name : String)
  | setEnabled (name : String) (enabled : Bool)
  | tick (task : ℕ) (now : ℚ)
  | claim (task : ℕ) (worker : Worker) (now : ℚ)
  | handled (task : ℕ) (outcome : Outcome)
  | resume (task : ℕ)
deriving DecidableEq

instance (statement : Statement ℚ) : Decidable (Standalone statement) := by
  unfold Standalone
  split <;> infer_instance

/-- The next statement of a task. -/
def resume (timeText : ℚ → String) (s : State) (i : ℕ) : Task → Option (Event × State)
  | .enqueue args =>
    some (.lookup i args.idempotencyKey (selectKey s.db.jobs args.idempotencyKey),
      s.setTask i .finished)
  | .tick ⟨now, due, row :: rest, .insert⟩ =>
    let (jobs, id) := insert s.db.jobs (slotArgs timeText now row)
    some (.tickInsert i row (slotArgs timeText now row) id,
      (s.setJobs jobs).setTask i (.ofTickInsert ⟨now, due, row :: rest, .insert⟩ id))
  | .tick ⟨now, due, row :: rest, .select⟩ =>
    let id := selectKey s.db.jobs (slotArgs timeText now row).idempotencyKey
    some (.tickLookup i row (slotArgs timeText now row).idempotencyKey id,
      s.setTask i (.ofTickLookup ⟨now, due, row :: rest, .select⟩ id))
  | .tick ⟨now, due, row :: rest, .update⟩ =>
    let (schedules, moved) := advance s.db.schedules now row
    some (.tickUpdate i now row moved,
      (s.setSchedules schedules).setTask i (.tick ⟨now, due, rest, .insert⟩))
  | .delivery ⟨worker, job, now, some outcome⟩ =>
    match settleKind worker job outcome with
    | .ok kind =>
      let (jobs, result) := settle s.db.jobs kind job.id (some worker.workerId) now
      some (.settle i ⟨worker, job, now, some outcome⟩ kind result,
        (s.setJobs jobs).setTask i .finished)
    | .error error => some (.raised i ⟨worker, job, now, some outcome⟩ error, s.setTask i .finished)
  | _ => none

/-- One action, if it is possible. -/
def act (timeText : ℚ → String) (s : State) : Action → Option (Event × State)
  | .call statement =>
    if Standalone statement then
      let (jobs, reply) := perform s.db.jobs statement
      some (.call ⟨statement, reply⟩, s.setJobs jobs)
    else none
  | .enqueue i args =>
    if s.tasks i = none then
      let (jobs, id) := insert s.db.jobs args
      some (.enqueue i args id, (s.setJobs jobs).setTask i (.ofInsert args id))
    else none
  | .add args =>
    let (schedules, result) := add s.db.schedules args
    some (.add args result, s.setSchedules schedules)
  | .remove name =>
    let (schedules, removed) := remove s.db.schedules name
    some (.remove name removed, s.setSchedules schedules)
  | .setEnabled name enabled =>
    let (schedules, found) := setEnabled s.db.schedules name enabled
    some (.setEnabled name enabled found, s.setSchedules schedules)
  | .tick i now =>
    let due := dueRows s.db.schedules now
    if s.tasks i = none then
      some (.tickSelect i now due, s.setTask i (.tick ⟨now, due, due, .insert⟩))
    else none
  | .claim i worker now =>
    if s.tasks i = none then
      let (jobs, job) := claimJob worker s.db.jobs now
      some (.claim i worker now job, (s.setJobs jobs).setTask i (.ofClaim worker now job))
    else none
  | .handled i outcome =>
    match s.tasks i with
    | some (.delivery ⟨worker, job, now, none⟩) =>
      some (.handled i outcome, s.setTask i (.delivery ⟨worker, job, now, some outcome⟩))
    | _ => none
  | .resume i => (s.tasks i).bind (resume timeText s i)

variable {timeText : ℚ → String} {s t : State} {e : Event}

theorem step_resume {i : ℕ} {task : Task} (htask : s.tasks i = some task)
    (h : resume timeText s i task = some (e, t)) : Step timeText s e t := by
  unfold resume at h
  split at h
  · obtain ⟨rfl, rfl⟩ := Prod.mk.inj (Option.some.inj h)
    exact .lookup s i _ htask
  · obtain ⟨rfl, rfl⟩ := Prod.mk.inj (Option.some.inj h)
    exact .tickInsert s i _ _ _ _ htask
  · obtain ⟨rfl, rfl⟩ := Prod.mk.inj (Option.some.inj h)
    exact .tickLookup s i _ _ _ _ htask
  · obtain ⟨rfl, rfl⟩ := Prod.mk.inj (Option.some.inj h)
    exact .tickUpdate s i _ _ _ _ htask
  · split at h
    · rename_i hkind
      obtain ⟨rfl, rfl⟩ := Prod.mk.inj (Option.some.inj h)
      exact .settle s i _ _ _ htask rfl hkind
    · rename_i hkind
      obtain ⟨rfl, rfl⟩ := Prod.mk.inj (Option.some.inj h)
      exact .raised s i _ _ _ htask rfl hkind
  · cases h

/-- A possible action is a step. -/
theorem step_act {action : Action} (h : act timeText s action = some (e, t)) :
    Step timeText s e t := by
  cases action with
  | call statement =>
    simp only [act] at h
    split_ifs at h with hsingle
    obtain ⟨rfl, rfl⟩ := Prod.mk.inj (Option.some.inj h)
    exact .call s statement hsingle
  | enqueue i args =>
    simp only [act] at h
    split_ifs at h with hfresh
    obtain ⟨rfl, rfl⟩ := Prod.mk.inj (Option.some.inj h)
    exact .enqueue s i args hfresh
  | add args =>
    obtain ⟨rfl, rfl⟩ := Prod.mk.inj (Option.some.inj h)
    exact .add s args
  | remove name =>
    obtain ⟨rfl, rfl⟩ := Prod.mk.inj (Option.some.inj h)
    exact .remove s name
  | setEnabled name enabled =>
    obtain ⟨rfl, rfl⟩ := Prod.mk.inj (Option.some.inj h)
    exact .setEnabled s name enabled
  | tick i now =>
    simp only [act] at h
    split_ifs at h with hfresh
    obtain ⟨rfl, rfl⟩ := Prod.mk.inj (Option.some.inj h)
    exact .tickSelect s i now _ hfresh (.refl _)
  | claim i worker now =>
    simp only [act] at h
    split_ifs at h with hfresh
    obtain ⟨rfl, rfl⟩ := Prod.mk.inj (Option.some.inj h)
    exact .claim s i worker now hfresh
  | handled i outcome =>
    simp only [act] at h
    split at h
    · rename_i htask
      obtain ⟨rfl, rfl⟩ := Prod.mk.inj (Option.some.inj h)
      exact .handled s i _ _ _ outcome htask
    · cases h
  | resume i =>
    obtain ⟨task, htask, h⟩ := Option.bind_eq_some_iff.mp h
    exact step_resume htask h

/-- What a list of actions does: the history and the state it ends in. -/
abbrev runActions (timeText : ℚ → String) (s : State) (actions : List Action) :
    List Event × State :=
  execute (act timeText) s actions

theorem run_runActions (timeText : ℚ → String) (s : State) (actions : List Action) :
    Run (Step timeText) s (runActions timeText s actions).1 (runActions timeText s actions).2 := by
  refine run_execute (fun s action e t h ↦ ?_) s actions
  exact step_act h

/-- The same, without the actions whose step lacks a property. -/
abbrev runGuarded (timeText : ℚ → String) (property : State → Event → State → Prop)
    [∀ s e t, Decidable (property s e t)] (s : State) (actions : List Action) :
    List Event × State :=
  execute (guarded (act timeText) property) s actions

theorem run_runGuarded (timeText : ℚ → String) (property : State → Event → State → Prop)
    [∀ s e t, Decidable (property s e t)] (s : State) (actions : List Action) :
    Run (Throughout (Step timeText) property) s (runGuarded timeText property s actions).1
      (runGuarded timeText property s actions).2 := by
  refine run_guarded (fun s action e t h ↦ ?_) s actions
  exact step_act h

/-- The text of a whole number of seconds, as Python writes a float. -/
def wholeSeconds (time : ℚ) : String := toString time.num ++ ".0"

end Relay.System
