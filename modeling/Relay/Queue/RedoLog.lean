import Relay.Queue.RowMachine

/-!
# The history as a redo log

A statement selects its rows by guards, an order and constraints. Its entry in a history says which
rows these were, so the history is a log: what it wrote can be written again without looking at the
table (`Redo`). `release_expired` and `requeue_dead` answer only how many rows they touched; their
entries record which. `Step.rows_eq` says that this is what the step has done, and
`shardRows_replay` that writing a log can be split by jobs. So any part of the jobs can be rebuilt
from the entries that name one of them, in particular the one that `get` reads (`shard_of_log`).
-/

set_option autoImplicit false
set_option relaxedAutoImplicit false

namespace Relay.Queue

open Foundations Store

variable {τ : Type*}

/-- `Queue.get`: `SELECT * FROM jobs WHERE id = ?`, the first row. -/
def get (jobs : Jobs τ) (jobId : ℕ) : Option (JobRow τ) :=
  (jobs.rows.filter fun row ↦ row.id = jobId).head?

theorem get_eq_row? (jobs : Jobs τ) (jobId : ℕ) : get jobs jobId = jobs.row? jobId := by
  rw [get, Table.filter_key jobs.distinct]
  exact Option.head?_toList

/-! ### Entries of the log -/

/-- What an entry writes: a row it adds, or what it sets in the rows with some ids. -/
inductive Redo (τ : Type*)
  | add (row : JobRow τ)
  | write (ids : List ℕ) (set : JobRow τ → JobRow τ) (keeps : ∀ row, (set row).ticket = row.ticket)

/-- An entry that writes nothing. -/
def Redo.nothing : Redo τ := .write [] id fun _ ↦ rfl

/-- The jobs an entry writes. -/
def Redo.jobIds : Redo τ → List ℕ
  | .add row => [row.id]
  | .write ids _ _ => ids

/-- The entry writes a job of a shard. -/
def Redo.Writes (shard : ℕ → Prop) (redo : Redo τ) : Prop := ∃ j ∈ redo.jobIds, shard j

instance (shard : ℕ → Prop) [DecidablePred shard] (redo : Redo τ) :
    Decidable (redo.Writes shard) := inferInstanceAs (Decidable (∃ j ∈ redo.jobIds, shard j))

/-- Writing an entry. -/
def Redo.apply (rows : List (JobRow τ)) : Redo τ → List (JobRow τ)
  | .add row => rows ++ [row]
  | .write ids set _ => Table.updateWhere (fun row ↦ row.id ∈ ids) set rows

/-- What an entry of a history writes, by its arguments and what it answered. -/
def Event.redo [Add τ] : Event τ → Redo τ
  | ⟨.insert args, .inserted (some id)⟩ => .add (args.row id)
  | ⟨.claim workerId _ leaseS now, .claimed (some job)⟩ =>
    .write [job.id] (claimed workerId leaseS now) (ticket_claimed workerId leaseS now)
  | ⟨.settle kind jobId _ now, .settled (.ok ())⟩ =>
    .write [jobId] (kind.set now) (kind.ticket_set now)
  | ⟨.releaseExpired now, .touched ids⟩ => .write ids (released now) (ticket_released now)
  | ⟨.requeueDead _ now, .touched ids⟩ => .write ids (requeued now) (ticket_requeued now)
  | _ => .nothing

/-- Writing a log. -/
def replay [Add τ] (rows : List (JobRow τ)) (es : List (Event τ)) : List (JobRow τ) :=
  es.foldl (fun rows e ↦ e.redo.apply rows) rows

theorem apply_nothing (rows : List (JobRow τ)) : Redo.nothing.apply rows = rows :=
  Table.updateWhere_of_forall_not fun _ _ ↦ List.not_mem_nil

/-- The rows an entry adds. -/
def Redo.added : Redo τ → List (JobRow τ)
  | .add row => [row]
  | .write .. => []

/-- The row an entry adds is the one its insert describes. -/
theorem mem_added_redo [Add τ] {e : Event τ} {row : JobRow τ} (h : row ∈ e.redo.added) :
    ∃ args id, e = ⟨.insert args, .inserted (some id)⟩ ∧ row = args.row id := by
  unfold Event.redo at h
  split at h
  · exact ⟨_, _, rfl, List.mem_singleton.mp h⟩
  all_goals cases h

/-- An entry changes no column that a producer fixed. -/
theorem tickets_apply (rows : List (JobRow τ)) (redo : Redo τ) :
    (redo.apply rows).map JobRow.ticket =
      rows.map JobRow.ticket ++ redo.added.map JobRow.ticket := by
  cases redo with
  | add row => exact List.map_append
  | write ids set keeps =>
    rw [Redo.apply, Table.updateWhere, List.map_map]
    refine (List.map_congr_left fun row _ ↦ ?_).trans (List.append_nil _).symm
    show JobRow.ticket (if row.id ∈ ids then set row else row) = row.ticket
    split_ifs
    · exact keeps row
    · rfl

/-! ### One step -/

/-- An update is the same as setting the rows whose ids it returns. -/
theorem updateWhere_touchedIds (jobs : Jobs τ) (p : JobRow τ → Prop) [DecidablePred p]
    {set : JobRow τ → JobRow τ} (keeps : ∀ row, (set row).ticket = row.ticket) :
    Table.updateWhere p set jobs.rows =
      Table.updateWhere (fun row ↦ row.id ∈ (Table.touched p set jobs.rows).map JobRow.id) set
        jobs.rows := by
  refine Table.updateWhere_congr fun row hrow ↦ ?_
  rw [mem_touchedIds jobs p keeps, Jobs.row?_of_mem hrow]
  simp

section Machine

variable [Add τ] [LinearOrder τ] {jobs jobs' : Jobs τ} {e : Event τ} {es : List (Event τ)}

/-- A step has written what its entry says. -/
theorem Step.rows_eq (h : Step jobs e jobs') : jobs'.rows = e.redo.apply jobs.rows := by
  obtain ⟨statement, reply⟩ := e
  cases statement with
  | insert args =>
    obtain ⟨rfl, rfl⟩ := Prod.mk.inj h
    rcases insert_cases jobs args with ⟨-, hinsert⟩ | ⟨-, jobs', hinsert, -, hrows, -⟩
    · rw [hinsert]
      exact (apply_nothing jobs.rows).symm
    · rw [hinsert]
      exact hrows
  | selectKey key =>
    obtain ⟨rfl, rfl⟩ := Prod.mk.inj h
    exact (apply_nothing jobs.rows).symm
  | claim workerId kinds leaseS now =>
    obtain ⟨rfl, rfl⟩ := Prod.mk.inj h
    rcases claim_cases jobs workerId kinds leaseS now with ⟨-, hclaim⟩ | ⟨row, rest, -, hclaim⟩
    · rw [hclaim]
      exact (apply_nothing jobs.rows).symm
    · rw [hclaim]
      exact Table.updateWhere_congr fun other _ ↦ List.mem_singleton.symm
  | settle kind jobId workerId now =>
    obtain ⟨rfl, rfl⟩ := Prod.mk.inj h
    by_cases hok : (settle jobs kind jobId workerId now).2 = .ok ()
    · obtain ⟨row, hrow, hguard⟩ := (settle_ok_iff jobs kind jobId workerId now).mp hok
      rw [hok]
      refine Table.updateWhere_congr fun other hother ↦ ?_
      rw [List.mem_singleton]
      constructor
      · exact fun hother ↦ hother.1
      · rintro rfl
        obtain rfl := Option.some.inj ((Jobs.row?_of_mem hother).symm.trans hrow)
        exact hguard
    · rw [settle_error hok]
      exact (apply_nothing jobs.rows).symm
  | releaseExpired now =>
    obtain ⟨rfl, rfl⟩ := Prod.mk.inj h
    exact updateWhere_touchedIds jobs _ (ticket_released now)
  | requeueDead jobId now =>
    obtain ⟨rfl, rfl⟩ := Prod.mk.inj h
    exact updateWhere_touchedIds jobs _ (ticket_requeued now)

/-- A run has written what its log says. -/
theorem rows_of_run (h : Run Step jobs es jobs') : jobs'.rows = replay jobs.rows es :=
  h.foldl Jobs.rows fun _ _ _ hstep ↦ hstep.rows_eq

end Machine

/-! ### Shards -/

section Shard

variable (shard : ℕ → Prop) [DecidablePred shard]

/-- The rows of a shard. -/
def shardRows (rows : List (JobRow τ)) : List (JobRow τ) := rows.filter fun row ↦ shard row.id

/-- What an entry writes to a shard, it writes whatever the other jobs are. -/
theorem shardRows_apply (rows : List (JobRow τ)) (redo : Redo τ) :
    shardRows shard (redo.apply rows) =
      if redo.Writes shard then redo.apply (shardRows shard rows) else shardRows shard rows := by
  cases redo with
  | add row =>
    rw [Redo.apply, shardRows, List.filter_append, ← shardRows]
    by_cases hrow : shard row.id <;> simp [Redo.Writes, Redo.jobIds, Redo.apply, hrow]
  | write ids set keeps =>
    have hid : ∀ row, (set row).id = row.id := fun row ↦ congrArg Ticket.id (keeps row)
    rw [Redo.apply, shardRows, Table.filter_updateWhere_of_iff fun row ↦ by rw [hid], ← shardRows]
    split_ifs with htouched
    · rfl
    · refine Table.updateWhere_of_forall_not fun row hrow hmem ↦ htouched ⟨row.id, hmem, ?_⟩
      exact of_decide_eq_true (List.mem_filter.mp hrow).2

/-- A log can be written to a shard without the entries that write none of its jobs. -/
theorem shardRows_replay [Add τ] (rows : List (JobRow τ)) (es : List (Event τ)) :
    shardRows shard (replay rows es) =
      replay (shardRows shard rows) (es.filter fun e ↦ e.redo.Writes shard) := by
  induction es generalizing rows with
  | nil => rfl
  | cons e es ih =>
    rw [replay, List.foldl_cons, ← replay, ih, shardRows_apply, List.filter_cons]
    by_cases hwrites : e.redo.Writes shard
    · rw [if_pos hwrites, if_pos (decide_eq_true hwrites)]
      rfl
    · rw [if_neg hwrites, if_neg (by simpa using hwrites)]

end Shard

variable [Add τ] [LinearOrder τ] {jobs jobs' : Jobs τ} {es : List (Event τ)}

/-- The history is a redo log of the jobs table, and can be kept in shards. After every run of
statements the rows of any set of jobs are what the entries of the history that name one of these
jobs write over the rows the run started from, with no guard, order or constraint evaluated again.
So what `get` returns is written by the entries that name the job: no other statement has a part in
it. -/
theorem shard_of_log (h : Run Step jobs es jobs') :
    (∀ (shard : ℕ → Prop) [DecidablePred shard], shardRows shard jobs'.rows =
      replay (shardRows shard jobs.rows) (es.filter fun e ↦ e.redo.Writes shard)) ∧
    ∀ j, get jobs' j =
      (replay (get jobs j).toList (es.filter fun e ↦ j ∈ e.redo.jobIds)).head? := by
  have hshard : ∀ (shard : ℕ → Prop) [DecidablePred shard], shardRows shard jobs'.rows =
      replay (shardRows shard jobs.rows) (es.filter fun e ↦ e.redo.Writes shard) := by
    intro shard _
    rw [rows_of_run h, shardRows_replay]
  refine ⟨hshard, fun j ↦ ?_⟩
  have hone : shardRows (· = j) jobs.rows = (get jobs j).toList := by
    rw [get_eq_row?]
    exact Table.filter_key jobs.distinct j
  have hlog : (es.filter fun e ↦ e.redo.Writes (· = j)) = es.filter fun e ↦ j ∈ e.redo.jobIds := by
    simp [Redo.Writes]
  rw [get, ← hlog, ← hone, ← hshard]
  rfl

/-- Two jobs under leases of two workers, of which one is acked and the other taken back. -/
def twoLeases : List (Statement ℚ) :=
  [.insert ⟨"email", "null", 0, 5, 0, some "a", 1⟩, .insert ⟨"email", "null", 0, 1, 0, some "a", 2⟩,
    .insert ⟨"email", "null", 3, 1, 0, none, 2⟩, .claim (some "w1") none 10 3,
    .claim (some "w2") none 10 4, .settle .ack 1 (some "w2") 5, .releaseExpired 20,
    .requeueDead none 21]

theorem shard_of_log_twoLeases : get (exec .empty twoLeases).2 1 =
    (replay [] ((exec Jobs.empty twoLeases).1.filter fun e ↦ 1 ∈ e.redo.jobIds)).head? :=
  (shard_of_log (run_exec .empty twoLeases)).2 1

/-- Three of the eight entries name the first job. -/
example : ((exec Jobs.empty twoLeases).1.filter fun e ↦ 1 ∈ e.redo.jobIds).length = 3 := by
  decide +kernel

end Relay.Queue
