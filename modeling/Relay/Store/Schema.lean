import Relay.Foundations.Table
import Mathlib.Data.List.Pairwise
import Mathlib.Data.Rat.Floor

/-!
# The database of Relay

The two tables of `SCHEMA` in `store.py`, with the constraints of the schema as fields: a `Jobs` or
`Schedules` value that breaks a constraint cannot be built. Every statement of the program runs in
autocommit mode, so a statement is a function from one such value to the next.

A `NULL` is `none`, and a comparison with `NULL` is never true (`SqlEq`, and bounded quantifiers
over an optional deadline elsewhere). The `payload` column is the JSON text written by
`json.dumps`; `json.loads` reads the JSON value it stands for, so the model hands the text on
unchanged. Times are finite. The jobs table and the queue only compare and add
them, so there they are of any type; the scheduler and the worker compute with exact rationals.
-/

set_option autoImplicit false
set_option relaxedAutoImplicit false

namespace Relay.Store

open Foundations

/-- Equality of SQL: `NULL` equals nothing, not even `NULL`. -/
def SqlEq {α : Type*} (a b : Option α) : Prop := a.isSome ∧ a = b

instance {α : Type*} [DecidableEq α] (a b : Option α) : Decidable (SqlEq a b) :=
  inferInstanceAs (Decidable (_ ∧ _))

theorem SqlEq.comm {α : Type*} {a b : Option α} (h : SqlEq a b) : SqlEq b a :=
  ⟨h.2 ▸ h.1, h.2.symm⟩

@[simp] theorem sqlEq_some_left {α : Type*} {a : α} {b : Option α} :
    SqlEq (some a) b ↔ b = some a := by
  simp [SqlEq, eq_comm]

@[simp] theorem not_sqlEq_none_right {α : Type*} {a : Option α} : ¬ SqlEq a none := by
  cases a <;> simp [SqlEq]

/-! ### The jobs table -/

/-- `CHECK (status IN ('queued', 'leased', 'done', 'dead'))`. -/
inductive Status
  | queued
  | leased
  | done
  | dead
deriving DecidableEq, Repr

/-- A row of `jobs`. -/
structure JobRow (τ : Type*) where
  id : ℕ
  kind : String
  payload : String
  status : Status
  priority : ℤ
  attempts : ℕ
  maxAttempts : ℤ
  notBefore : τ
  leaseUntil : Option τ
  workerId : Option String
  idempotencyKey : Option String
  lastError : Option String
  createdAt : τ
  updatedAt : τ
deriving DecidableEq, Repr

/-- The columns a producer fixes when the row is inserted. -/
structure Ticket (τ : Type*) where
  id : ℕ
  kind : String
  payload : String
  priority : ℤ
  maxAttempts : ℤ
  idempotencyKey : Option String
  createdAt : τ
deriving DecidableEq, Repr

def JobRow.ticket {τ : Type*} (row : JobRow τ) : Ticket τ where
  id := row.id
  kind := row.kind
  payload := row.payload
  priority := row.priority
  maxAttempts := row.maxAttempts
  idempotencyKey := row.idempotencyKey
  createdAt := row.createdAt

/-- The table `jobs`. `sequence` is the entry of `sqlite_sequence` behind `AUTOINCREMENT`: the
largest id ever handed out. -/
@[ext] structure Jobs (τ : Type*) where
  rows : List (JobRow τ)
  sequence : ℕ
  /-- `INTEGER PRIMARY KEY AUTOINCREMENT`. -/
  increasing : rows.Pairwise fun a b ↦ a.id < b.id
  bounded : ∀ row ∈ rows, row.id ≤ sequence
  /-- `idempotency_key TEXT UNIQUE`. -/
  unique : rows.Pairwise fun a b ↦ ¬ SqlEq a.idempotencyKey b.idempotencyKey

namespace Jobs

variable {τ : Type*}

def empty : Jobs τ where
  rows := []
  sequence := 0
  increasing := .nil
  bounded := by simp
  unique := .nil

/-- The row with an id, if there is one. -/
def row? (jobs : Jobs τ) (id : ℕ) : Option (JobRow τ) := Table.lookup JobRow.id id jobs.rows

theorem distinct (jobs : Jobs τ) : jobs.rows.Pairwise fun a b ↦ a.id ≠ b.id :=
  jobs.increasing.imp fun h ↦ h.ne

theorem row?_eq_some_iff {jobs : Jobs τ} {id : ℕ} {row : JobRow τ} :
    jobs.row? id = some row ↔ row ∈ jobs.rows ∧ row.id = id :=
  Table.lookup_eq_some_iff jobs.distinct

theorem row?_of_mem {jobs : Jobs τ} {row : JobRow τ} (h : row ∈ jobs.rows) :
    jobs.row? row.id = some row := row?_eq_some_iff.mpr ⟨h, rfl⟩

theorem mem_of_row? {jobs : Jobs τ} {id : ℕ} {row : JobRow τ} (h : jobs.row? id = some row) :
    row ∈ jobs.rows := (row?_eq_some_iff.mp h).1

theorem id_of_row? {jobs : Jobs τ} {id : ℕ} {row : JobRow τ} (h : jobs.row? id = some row) :
    row.id = id := (row?_eq_some_iff.mp h).2

theorem row?_eq_none_iff {jobs : Jobs τ} {id : ℕ} :
    jobs.row? id = none ↔ ∀ row ∈ jobs.rows, row.id ≠ id := Table.lookup_eq_none_iff

@[simp] theorem row?_empty (id : ℕ) : (empty : Jobs τ).row? id = none := rfl

/-- Two rows with one id are one row. -/
theorem eq_of_id {jobs : Jobs τ} {a b : JobRow τ} (ha : a ∈ jobs.rows) (hb : b ∈ jobs.rows)
    (h : a.id = b.id) : a = b := by
  have hrow := row?_of_mem ha
  rw [h, row?_of_mem hb] at hrow
  exact (Option.some.inj hrow).symm

/-- Two rows with one key that is not `NULL` are one row. -/
theorem eq_of_key {jobs : Jobs τ} {a b : JobRow τ} (ha : a ∈ jobs.rows) (hb : b ∈ jobs.rows)
    (h : SqlEq a.idempotencyKey b.idempotencyKey) : a = b := by
  by_contra hne
  have : Std.Symm fun a b : JobRow τ ↦ ¬ SqlEq a.idempotencyKey b.idempotencyKey :=
    ⟨fun _ _ hab hba ↦ hab hba.comm⟩
  exact jobs.unique.forall ha hb hne h

/-- The rows are in the order of their ids, so a table is known by its rows under each id. -/
theorem rows_eq_of_row? {jobs jobs' : Jobs τ} (h : ∀ id, jobs'.row? id = jobs.row? id) :
    jobs'.rows = jobs.rows := by
  have hnodup : ∀ table : Jobs τ, table.rows.Nodup := fun table ↦
    table.distinct.imp fun hne heq ↦ hne (congrArg JobRow.id heq)
  refine List.Perm.eq_of_pairwise ?_ jobs'.increasing jobs.increasing
    ((List.perm_ext_iff_of_nodup (hnodup jobs') (hnodup jobs)).mpr fun row ↦ ?_)
  · intro a b _ _ hab hba
    omega
  · constructor
    · intro hrow
      exact mem_of_row? ((h row.id).symm.trans (row?_of_mem hrow))
    · intro hrow
      exact mem_of_row? ((h row.id).trans (row?_of_mem hrow))

/-- `UPDATE jobs SET set WHERE p`, for a `set` that writes neither the id nor the key. -/
def update (jobs : Jobs τ) (p : JobRow τ → Prop) [DecidablePred p] (set : JobRow τ → JobRow τ)
    (keeps : ∀ row, (set row).ticket = row.ticket) : Jobs τ where
  rows := Table.updateWhere p set jobs.rows
  sequence := jobs.sequence
  increasing := by
    have hid : ∀ row, (set row).id = row.id := fun row ↦ congrArg Ticket.id (keeps row)
    refine Table.pairwise_updateWhere (fun a b hab ↦ ?_) jobs.increasing
    by_cases ha : p a <;> by_cases hb : p b <;> simpa [ha, hb, hid] using hab
  bounded := by
    have hid : ∀ row, (set row).id = row.id := fun row ↦ congrArg Ticket.id (keeps row)
    intro row hrow
    obtain ⟨old, hold, rfl⟩ := Table.mem_updateWhere.mp hrow
    by_cases h : p old <;> simpa [h, hid] using jobs.bounded old hold
  unique := by
    have hkey : ∀ row, (set row).idempotencyKey = row.idempotencyKey :=
      fun row ↦ congrArg Ticket.idempotencyKey (keeps row)
    refine Table.pairwise_updateWhere (fun a b hab ↦ ?_) jobs.unique
    by_cases ha : p a <;> by_cases hb : p b <;> simpa [ha, hb, hkey] using hab

/-- `INSERT` of a row under the next id. -/
def append (jobs : Jobs τ) (row : JobRow τ) (hid : row.id = jobs.sequence + 1)
    (hkey : ∀ old ∈ jobs.rows, ¬ SqlEq old.idempotencyKey row.idempotencyKey) : Jobs τ where
  rows := jobs.rows ++ [row]
  sequence := jobs.sequence + 1
  increasing := by
    refine List.pairwise_append.mpr ⟨jobs.increasing, List.pairwise_singleton _ _, ?_⟩
    intro old hold new hnew
    rw [List.mem_singleton.mp hnew, hid]
    exact Nat.lt_succ_of_le (jobs.bounded old hold)
  bounded := by
    intro old hold
    rcases List.mem_append.mp hold with hold | hold
    · exact (jobs.bounded old hold).trans (Nat.le_succ _)
    · exact (List.mem_singleton.mp hold ▸ hid).le
  unique := by
    refine List.pairwise_append.mpr ⟨jobs.unique, List.pairwise_singleton _ _, ?_⟩
    intro old hold new hnew
    rw [List.mem_singleton.mp hnew]
    exact hkey old hold

/-- An ignored `INSERT`: SQLite does not hand out the id it had drawn for the row again. -/
def skipId (jobs : Jobs τ) : Jobs τ where
  rows := jobs.rows
  sequence := jobs.sequence + 1
  increasing := jobs.increasing
  bounded := fun row hrow ↦ (jobs.bounded row hrow).trans (Nat.le_succ _)
  unique := jobs.unique

/-- The part of the table whose fixed columns satisfy a condition. -/
def part (jobs : Jobs τ) (p : Ticket τ → Prop) [DecidablePred p] : Jobs τ where
  rows := jobs.rows.filter fun row ↦ p row.ticket
  sequence := jobs.sequence
  increasing := jobs.increasing.filter _
  bounded := fun row hrow ↦ jobs.bounded row (List.mem_of_mem_filter hrow)
  unique := jobs.unique.filter _

theorem mem_rows_part {jobs : Jobs τ} {p : Ticket τ → Prop} [DecidablePred p] {row : JobRow τ} :
    row ∈ (jobs.part p).rows ↔ row ∈ jobs.rows ∧ p row.ticket := by
  simp [part]

@[simp] theorem rows_part_true (jobs : Jobs τ) : (jobs.part fun _ ↦ True).rows = jobs.rows := by
  simp [part]

theorem row?_part (jobs : Jobs τ) (p : Ticket τ → Prop) [DecidablePred p] (id : ℕ) :
    (jobs.part p).row? id = (jobs.row? id).filter fun row ↦ p row.ticket := by
  ext row
  rw [Option.filter_eq_some_iff, row?_eq_some_iff, row?_eq_some_iff, mem_rows_part,
    decide_eq_true_eq]
  tauto

theorem row?_update (jobs : Jobs τ) (p : JobRow τ → Prop) [DecidablePred p]
    {set : JobRow τ → JobRow τ} (keeps : ∀ row, (set row).ticket = row.ticket) (id : ℕ) :
    (jobs.update p set keeps).row? id =
      (jobs.row? id).map fun row ↦ if p row then set row else row := by
  have hid : ∀ row, (set row).id = row.id := fun row ↦ congrArg Ticket.id (keeps row)
  exact Table.lookup_updateWhere hid id jobs.rows

/-- An update on one row: either the row matches and is written, or it is not touched. -/
theorem row?_update_cases (jobs : Jobs τ) (p : JobRow τ → Prop) [DecidablePred p]
    {set : JobRow τ → JobRow τ} (keeps : ∀ row, (set row).ticket = row.ticket) (id : ℕ) :
    (∃ row, jobs.row? id = some row ∧ p row ∧ (jobs.update p set keeps).row? id = some (set row)) ∨
      ((¬ ∃ row, jobs.row? id = some row ∧ p row) ∧
        (jobs.update p set keeps).row? id = jobs.row? id) := by
  rw [row?_update]
  cases hrow : jobs.row? id with
  | none => exact .inr ⟨by simp, rfl⟩
  | some row =>
    by_cases hp : p row
    · exact .inl ⟨row, rfl, hp, by simp [hp]⟩
    · refine .inr ⟨?_, by simp [hp]⟩
      rintro ⟨other, hother, hother'⟩
      exact hp (Option.some.inj hother ▸ hother')

/-- Updates that are apart may be run in either order. -/
theorem update_comm (jobs : Jobs τ) {p q : JobRow τ → Prop} [DecidablePred p] [DecidablePred q]
    {set set' : JobRow τ → JobRow τ} (h : Table.Apart p set q set')
    (keeps : ∀ row, (set row).ticket = row.ticket)
    (keeps' : ∀ row, (set' row).ticket = row.ticket) :
    (jobs.update p set keeps).update q set' keeps' =
      (jobs.update q set' keeps').update p set keeps :=
  Jobs.ext (h.updateWhere_comm jobs.rows) rfl

/-- The next id is above every id in the table. -/
theorem row?_of_sequence_lt {jobs : Jobs τ} {id : ℕ} (h : jobs.sequence < id) :
    jobs.row? id = none := by
  rw [row?_eq_none_iff]
  intro row hrow heq
  have := jobs.bounded row hrow
  omega

theorem row?_append {jobs : Jobs τ} {row : JobRow τ} {hid : row.id = jobs.sequence + 1}
    {hkey : ∀ old ∈ jobs.rows, ¬ SqlEq old.idempotencyKey row.idempotencyKey} (id : ℕ) :
    (jobs.append row hid hkey).row? id = if id = row.id then some row else jobs.row? id := by
  rw [row?, append, Table.lookup_append_singleton]
  change (jobs.row? id).or _ = _
  by_cases h : id = row.id
  · have hnone : jobs.row? id = none := row?_of_sequence_lt (by omega)
    simp [h, h ▸ hnone]
  · simp [h, Ne.symm h]

end Jobs

/-! ### The schedules table -/

/-- A row of `schedules`. The column `enabled` holds 1 or 0. -/
structure ScheduleRow where
  name : String
  kind : String
  payload : String
  intervalS : ℚ
  nextRun : ℚ
  enabled : Bool
deriving DecidableEq, Repr

/-- The table `schedules`. -/
@[ext] structure Schedules where
  rows : List ScheduleRow
  /-- `name TEXT PRIMARY KEY`. -/
  named : rows.Pairwise fun a b ↦ a.name ≠ b.name
  /-- `CHECK (interval_s > 0)`. -/
  positive : ∀ row ∈ rows, 0 < row.intervalS

namespace Schedules

def empty : Schedules where
  rows := []
  named := .nil
  positive := by simp

/-- The row with a name, if there is one. -/
def row? (schedules : Schedules) (name : String) : Option ScheduleRow :=
  Table.lookup ScheduleRow.name name schedules.rows

theorem row?_eq_some_iff {schedules : Schedules} {name : String} {row : ScheduleRow} :
    schedules.row? name = some row ↔ row ∈ schedules.rows ∧ row.name = name :=
  Table.lookup_eq_some_iff schedules.named

theorem row?_of_mem {schedules : Schedules} {row : ScheduleRow} (h : row ∈ schedules.rows) :
    schedules.row? row.name = some row := row?_eq_some_iff.mpr ⟨h, rfl⟩

theorem mem_of_row? {schedules : Schedules} {name : String} {row : ScheduleRow}
    (h : schedules.row? name = some row) : row ∈ schedules.rows := (row?_eq_some_iff.mp h).1

theorem name_of_row? {schedules : Schedules} {name : String} {row : ScheduleRow}
    (h : schedules.row? name = some row) : row.name = name := (row?_eq_some_iff.mp h).2

/-- `UPDATE schedules SET set WHERE p`, for a `set` that keeps the name and the interval check. -/
def update (schedules : Schedules) (p : ScheduleRow → Prop) [DecidablePred p]
    (set : ScheduleRow → ScheduleRow) (keeps : ∀ row, (set row).name = row.name)
    (check : ∀ row, 0 < row.intervalS → 0 < (set row).intervalS) : Schedules where
  rows := Table.updateWhere p set schedules.rows
  named := by
    refine Table.pairwise_updateWhere (fun a b hab ↦ ?_) schedules.named
    by_cases ha : p a <;> by_cases hb : p b <;> simpa [ha, hb, keeps] using hab
  positive := by
    intro row hrow
    obtain ⟨old, hold, rfl⟩ := Table.mem_updateWhere.mp hrow
    have hpos := schedules.positive old hold
    by_cases h : p old <;> simp only [h, if_true, if_false]
    · exact check old hpos
    · exact hpos

/-- `INSERT` of a row under a new name. -/
def append (schedules : Schedules) (row : ScheduleRow)
    (fresh : ∀ old ∈ schedules.rows, old.name ≠ row.name) (check : 0 < row.intervalS) :
    Schedules where
  rows := schedules.rows ++ [row]
  named := by
    refine List.pairwise_append.mpr ⟨schedules.named, List.pairwise_singleton _ _, ?_⟩
    intro old hold new hnew
    rw [List.mem_singleton.mp hnew]
    exact fresh old hold
  positive := by
    intro old hold
    rcases List.mem_append.mp hold with hold | hold
    · exact schedules.positive old hold
    · exact List.mem_singleton.mp hold ▸ check

/-- `DELETE FROM schedules WHERE p`. -/
def delete (schedules : Schedules) (p : ScheduleRow → Prop) [DecidablePred p] : Schedules where
  rows := schedules.rows.filter fun row ↦ ¬ p row
  named := schedules.named.filter _
  positive := fun row hrow ↦ schedules.positive row (List.mem_of_mem_filter hrow)

theorem row?_update (schedules : Schedules) (p : ScheduleRow → Prop) [DecidablePred p]
    {set : ScheduleRow → ScheduleRow} (keeps : ∀ row, (set row).name = row.name)
    (check : ∀ row, 0 < row.intervalS → 0 < (set row).intervalS) (name : String) :
    (schedules.update p set keeps check).row? name =
      (schedules.row? name).map fun row ↦ if p row then set row else row :=
  Table.lookup_updateWhere keeps name schedules.rows

theorem row?_append {schedules : Schedules} {row : ScheduleRow}
    {fresh : ∀ old ∈ schedules.rows, old.name ≠ row.name} {check : 0 < row.intervalS}
    (name : String) :
    (schedules.append row fresh check).row? name =
      if name = row.name then some row else schedules.row? name := by
  rw [row?, append, Table.lookup_append_singleton]
  change (schedules.row? name).or _ = _
  by_cases h : name = row.name
  · have hnone : schedules.row? name = none := Table.lookup_eq_none_iff.mpr (h ▸ fresh)
    simp [h, h ▸ hnone]
  · simp [h, Ne.symm h]

theorem row?_delete {schedules : Schedules} {p : ScheduleRow → Prop} [DecidablePred p]
    (name : String) :
    (schedules.delete p).row? name = (schedules.row? name).filter fun row ↦ ¬ p row := by
  cases h : schedules.row? name with
  | none =>
    refine Table.lookup_eq_none_iff.mpr fun row hrow ↦ ?_
    exact Table.lookup_eq_none_iff.mp h row (List.mem_of_mem_filter hrow)
  | some row =>
    by_cases hp : p row
    · rw [Option.filter_some_neg (by simpa using hp)]
      refine Table.lookup_eq_none_iff.mpr fun other hother hname ↦ ?_
      obtain ⟨hmem, hkept⟩ := List.mem_filter.mp hother
      have heq : schedules.row? name = some other := row?_eq_some_iff.mpr ⟨hmem, hname⟩
      rw [h] at heq
      simp [← Option.some.inj heq, hp] at hkept
    · rw [Option.filter_some_pos (by simpa using hp), row?_eq_some_iff]
      exact ⟨List.mem_filter.mpr ⟨mem_of_row? h, by simpa using hp⟩, name_of_row? h⟩

end Schedules

/-- One database file: everything the processes share. -/
@[ext] structure Database where
  jobs : Jobs ℚ
  schedules : Schedules

def Database.empty : Database := ⟨.empty, .empty⟩

end Relay.Store
