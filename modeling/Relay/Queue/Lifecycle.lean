import Relay.Queue.RowInvariants

/-!
# The life of a job

`Transition` lists the changes of status and the statements that make them. No step changes the
status of a row in any other way (`RowStep.transition`), none writes a row that is done
(`RowStep.done`), and ids are handed out in increasing order (`insertedIds_increasing`).
-/

set_option autoImplicit false
set_option relaxedAutoImplicit false

namespace Relay.Queue

open Foundations Store

variable {τ : Type*} {j : ℕ}

/-- The changes of the status of job `j`, with the steps that make them. -/
inductive Transition (j : ℕ) : Event τ → Status → Status → Prop
  | claim (workerId : Option String) (kinds : Option (List String)) (leaseS now : τ)
      {job : JobRow τ} (hjob : job.id = j) :
      Transition j ⟨.claim workerId kinds leaseS now, .claimed (some job)⟩ .queued .leased
  | ack (workerId : Option String) (now : τ) :
      Transition j ⟨.settle .ack j workerId now, .settled (.ok ())⟩ .leased .done
  | fail (error : String) (retryIn : τ) (workerId : Option String) (now : τ) {new : Status}
      (hnew : new = .queued ∨ new = .dead) :
      Transition j ⟨.settle (.fail error retryIn) j workerId now, .settled (.ok ())⟩ .leased new
  | bury (error : String) (workerId : Option String) (now : τ) :
      Transition j ⟨.settle (.bury error) j workerId now, .settled (.ok ())⟩ .leased .dead
  | releaseExpired (now : τ) {ids : List ℕ} (hmem : j ∈ ids) {new : Status}
      (hnew : new = .queued ∨ new = .dead) :
      Transition j ⟨.releaseExpired now, .touched ids⟩ .leased new
  | requeueDead (jobId : Option ℕ) (now : τ) {ids : List ℕ} (hmem : j ∈ ids) :
      Transition j ⟨.requeueDead jobId now, .touched ids⟩ .dead .queued

/-- The id of an insert that took effect. -/
def Event.insertedId? : Event τ → Option ℕ
  | ⟨.insert _, .inserted id⟩ => id
  | _ => none

section Machine

variable [Add τ] [LinearOrder τ] {e : Event τ} {es : List (Event τ)} {jobs jobs' : Jobs τ}

/-- Every change of status is one of the transitions. -/
theorem RowStep.transition {old new : JobRow τ} (h : RowStep j e (some old) (some new))
    (hne : new.status ≠ old.status) : Transition j e old.status new.status := by
  cases h with
  | onClaim workerId kinds leaseS now hid hclaim =>
    rw [hclaim.1.1]
    exact .claim workerId kinds leaseS now hid
  | onSettle kind workerId now hguard =>
    rw [hguard.2.1]
    cases kind with
    | ack => exact .ack workerId now
    | fail error retryIn =>
      refine .fail error retryIn workerId now ?_
      by_cases hspent : Exhausted old <;> simp [SettleKind.set, hspent]
    | bury error => exact .bury error workerId now
    | extendLease leaseS => exact absurd rfl hne
  | onRelease now ids hmem hexpired =>
    rw [hexpired.1]
    refine .releaseExpired now hmem ?_
    by_cases hspent : Exhausted old <;> simp [released, hspent]
  | onRequeue jobId now ids hmem hdead =>
    rw [hdead.1]
    exact .requeueDead jobId now hmem
  | untouched _ _ => exact absurd rfl hne

/-- A row that is done stays as it is. -/
theorem RowStep.done {row : JobRow τ} {row?' : Option (JobRow τ)}
    (h : RowStep j e (some row) row?') (hdone : row.status = .done) : row?' = some row := by
  cases h with
  | onClaim workerId kinds leaseS now _ hclaim =>
    rw [hclaim.1.1] at hdone
    cases hdone
  | onSettle kind workerId now hguard =>
    rw [hguard.2.1] at hdone
    cases hdone
  | onRelease now ids _ hexpired =>
    rw [hexpired.1] at hdone
    cases hdone
  | onRequeue jobId now ids _ hdead =>
    rw [hdead.1] at hdone
    cases hdone
  | untouched _ _ => rfl

/-- A row appears by an insert, as a queued job. -/
theorem RowStep.inserted {row : JobRow τ} (h : RowStep j e none (some row)) :
    row.status = .queued ∧ e.insertedId? = some j := by
  cases h
  exact ⟨rfl, rfl⟩

/-- A row that is done stays as it is for good. -/
theorem done_of_run (h : Run Step jobs es jobs') {row : JobRow τ} (hrow : jobs.row? j = some row)
    (hdone : row.status = .done) : jobs'.row? j = some row := by
  refine (run_row h j).invariant (fun row? ↦ row? = some row) (fun _ _ _ hsame hstep ↦ ?_) hrow
  rw [hsame] at hstep
  exact hstep.done hdone

/-- A step keeps the sequence of ids or hands out the next. -/
theorem Step.sequence (h : Step jobs e jobs') : jobs.sequence ≤ jobs'.sequence ∧
    ∀ id, e.insertedId? = some id → jobs.sequence < id ∧ id ≤ jobs'.sequence := by
  obtain ⟨statement, reply⟩ := e
  cases statement with
  | insert args =>
    obtain ⟨rfl, rfl⟩ := Prod.mk.inj h
    rcases insert_cases jobs args with ⟨-, hinsert⟩ | ⟨-, jobs', hinsert, hsequence, -, -⟩
    · rw [hinsert]
      exact ⟨Nat.le_succ _, fun _ h ↦ nomatch h⟩
    · rw [hinsert]
      refine ⟨(Nat.le_succ _).trans hsequence.ge, ?_⟩
      rintro _ ⟨⟩
      exact ⟨Nat.lt_succ_self _, hsequence.ge⟩
  | selectKey key =>
    obtain ⟨rfl, rfl⟩ := Prod.mk.inj h
    exact ⟨le_rfl, fun _ h ↦ nomatch h⟩
  | claim workerId kinds leaseS now =>
    obtain ⟨rfl, rfl⟩ := Prod.mk.inj h
    refine ⟨?_, fun _ h ↦ nomatch h⟩
    rcases claim_cases jobs workerId kinds leaseS now with ⟨-, hclaim⟩ | ⟨_, _, -, hclaim⟩
    · rw [hclaim]
    · rw [hclaim]
      exact le_rfl
  | settle kind jobId workerId now =>
    obtain ⟨rfl, rfl⟩ := Prod.mk.inj h
    exact ⟨le_rfl, fun _ h ↦ nomatch h⟩
  | releaseExpired now =>
    obtain ⟨rfl, rfl⟩ := Prod.mk.inj h
    exact ⟨le_rfl, fun _ h ↦ nomatch h⟩
  | requeueDead jobId now =>
    obtain ⟨rfl, rfl⟩ := Prod.mk.inj h
    exact ⟨le_rfl, fun _ h ↦ nomatch h⟩

/-- Ids are handed out in increasing order, above those of all rows at the start. -/
theorem insertedIds_increasing (h : Run Step jobs es jobs') :
    (es.filterMap Event.insertedId?).Pairwise (· < ·) ∧ jobs.sequence ≤ jobs'.sequence ∧
      ∀ id ∈ es.filterMap Event.insertedId?, jobs.sequence < id ∧ id ≤ jobs'.sequence := by
  refine h.history (motive := fun es jobs' ↦
    (es.filterMap Event.insertedId?).Pairwise (· < ·) ∧ jobs.sequence ≤ jobs'.sequence ∧
      ∀ id ∈ es.filterMap Event.insertedId?, jobs.sequence < id ∧ id ≤ jobs'.sequence) ?_ ?_
  · simp
  · rintro es between e jobs' - ⟨hincreasing, hle, hbounds⟩ hstep
    obtain ⟨hnext, hnew⟩ := hstep.sequence
    have hkept : ∀ id ∈ es.filterMap Event.insertedId?, jobs.sequence < id ∧ id ≤ jobs'.sequence :=
      fun id hid ↦ ⟨(hbounds id hid).1, (hbounds id hid).2.trans hnext⟩
    cases hlast : e.insertedId? with
    | none =>
      simp only [List.filterMap_append, List.filterMap_cons_none hlast, List.filterMap_nil,
        List.append_nil]
      exact ⟨hincreasing, hle.trans hnext, hkept⟩
    | some new =>
      obtain ⟨habove, hbelow⟩ := hnew new hlast
      simp only [List.filterMap_append, List.filterMap_cons_some hlast, List.filterMap_nil]
      refine ⟨List.pairwise_append.mpr ⟨hincreasing, List.pairwise_singleton _ _, ?_⟩,
        hle.trans hnext, ?_⟩
      · intro id hid last hlast'
        rw [List.mem_singleton.mp hlast']
        exact (hbounds id hid).2.trans_lt habove
      · intro id hid
        rcases List.mem_append.mp hid with hid | hid
        · exact hkept id hid
        · rw [List.mem_singleton.mp hid]
          exact ⟨hle.trans_lt habove, hbelow⟩

end Machine

end Relay.Queue
