import Relay.System.Clock

/-!
# Settling by the clock

A `run_once` reads the clock before its claim and passes that reading to the statement that settles
the job, however long the handler took. So the statement can find a lease live that has run out by
then, and record the outcome. There is no other way: a step settles under a live lease exactly if
it does not settle an overrun delivery, one whose row the reaper would take at that moment and the
settle statement still accepts (`settledLive_iff`, `settledLive_run_iff`). The deadline of such a
row lies between the reading before the claim and the clock (`overrun_iff`).
-/

set_option autoImplicit false
set_option relaxedAutoImplicit false

namespace Relay.System

open Foundations Store Queue Scheduler Workers

/-- When the step is the settle statement of a `run_once` and changes a row of the jobs table, the
clock has not passed the deadline of that row. -/
def SettledLive (before : State × ℚ) (e : Event × ℚ) (after : State × ℚ) : Prop :=
  ∀ i delivery kind result, e.1 = .settle i delivery kind result →
    ∀ j, after.1.db.jobs.row? j ≠ before.1.db.jobs.row? j →
      ∃ row ∈ before.1.db.jobs.row? j, ∃ deadline ∈ row.leaseUntil, e.2 ≤ deadline

/-- A delivery has overrun its lease and nobody has noticed: the reaper would take its row at this
time, and the guard of the settle statement accepts it at the time of the claim. -/
def Overrun (jobs : Jobs ℚ) (delivery : Delivery) (clock : ℚ) : Prop :=
  ∃ row ∈ jobs.rows, Expired clock row ∧
    HoldsLease delivery.job.id (some delivery.worker.workerId) delivery.now row

/-- The window of the stale reading: the row is still leased by the worker, until a time from the
reading before the claim on that the clock has passed. -/
theorem overrun_iff {jobs : Jobs ℚ} {delivery : Delivery} {clock : ℚ} :
    Overrun jobs delivery clock ↔ ∃ row deadline, jobs.row? delivery.job.id = some row ∧
      row.status = .leased ∧ row.workerId = some delivery.worker.workerId ∧
      row.leaseUntil = some deadline ∧ delivery.now ≤ deadline ∧ deadline < clock := by
  constructor
  · rintro ⟨row, hrow, ⟨hleased, passed, hpassed, hlt⟩, hid, -, hworker, deadline, hdeadline, hle⟩
    obtain rfl := Option.mem_unique hpassed hdeadline
    exact ⟨row, passed, hid ▸ Jobs.row?_of_mem hrow, hleased, hworker.2, hdeadline, hle, hlt⟩
  · rintro ⟨row, deadline, hrow, hleased, hworker, hdeadline, hle, hlt⟩
    exact ⟨row, Jobs.mem_of_row? hrow, ⟨hleased, deadline, hdeadline, hlt⟩, Jobs.id_of_row? hrow,
      hleased, ⟨hworker ▸ rfl, hworker⟩, deadline, hdeadline, hle⟩

/-- The step does not settle an overrun delivery. -/
def SettlesInTime (before : State × ℚ) (e : Event × ℚ) (_ : State × ℚ) : Prop :=
  ∀ i delivery kind result, e.1 = .settle i delivery kind result →
    ¬ Overrun before.1.db.jobs delivery e.2

variable {timeText : ℚ → String}

/-- The settle statements of `run_once` change the row they match. -/
theorem set_ne_of_settleKind {worker : Worker} {job : JobRow ℚ} {outcome : Outcome}
    {kind : SettleKind ℚ} (hkind : settleKind worker job outcome = .ok kind) {row : JobRow ℚ}
    (hleased : row.status = .leased) (now : ℚ) : kind.set now row ≠ row := by
  intro hsame
  have hstatus : (kind.set now row).status = .leased := by rw [hsame, hleased]
  rcases settleKind_ok hkind with ⟨-, rfl⟩ | ⟨text, -, rfl⟩ | ⟨text, delay, -, -, rfl⟩
  · cases hstatus
  · cases hstatus
  · simp only [SettleKind.set] at hstatus
    split_ifs at hstatus

/-- What the settle step of a `run_once` does to the jobs table. -/
theorem settle_step {s t : State} {e : Event} (h : Step timeText s e t) {i : ℕ}
    {delivery : Delivery} {kind : SettleKind ℚ} {result : Except PyError Unit}
    (hevent : e = .settle i delivery kind result) :
    t.db.jobs = (settle s.db.jobs kind delivery.job.id (some delivery.worker.workerId)
      delivery.now).1 ∧
    ∃ outcome, settleKind delivery.worker delivery.job outcome = .ok kind := by
  subst hevent
  cases h with
  | settle _ _ outcome _ _ _ hkind => exact ⟨rfl, outcome, hkind⟩

/-- A step settles under a live lease exactly if it does not settle an overrun delivery. -/
theorem settledLive_iff {before after : State × ℚ} {e : Event × ℚ}
    (h : ClockedStep timeText before e after) :
    SettledLive before e after ↔ SettlesInTime before e after := by
  obtain ⟨hstep, -, -, -⟩ := h
  constructor
  · rintro hlive i delivery kind result hevent hoverrun
    obtain ⟨row, passed, hrow, hleased, hworker, hpassed, haccepted, hlt⟩ :=
      overrun_iff.mp hoverrun
    have hguard :
        HoldsLease delivery.job.id (some delivery.worker.workerId) delivery.now row :=
      ⟨Jobs.id_of_row? hrow, hleased, ⟨hworker ▸ rfl, hworker⟩, passed, hpassed, haccepted⟩
    have hnew := row?_settle before.1.db.jobs kind delivery.job.id
      (some delivery.worker.workerId) delivery.now delivery.job.id
    rw [hrow, Option.map_some, if_pos hguard] at hnew
    obtain ⟨hchanged, outcome, hkind⟩ := settle_step hstep hevent
    obtain ⟨old, hold, deadline, hdeadline, hle⟩ :=
      hlive i delivery kind result hevent delivery.job.id (by
        rw [hchanged, hnew, hrow]
        exact fun hsame ↦ set_ne_of_settleKind hkind hleased _ (Option.some.inj hsame))
    rw [hrow] at hold
    rw [← Option.some.inj hold] at hdeadline
    rw [Option.mem_unique hdeadline hpassed] at hle
    exact absurd hle (not_le.mpr hlt)
  · intro hintime i delivery kind result hevent j hne
    obtain ⟨hchanged, -⟩ := settle_step hstep hevent
    rw [hchanged, row?_settle] at hne
    cases hrow : before.1.db.jobs.row? j with
    | none =>
      rw [hrow] at hne
      exact absurd rfl hne
    | some row =>
      rw [hrow, Option.map_some] at hne
      have hguard :
          HoldsLease delivery.job.id (some delivery.worker.workerId) delivery.now row := by
        by_contra hnot
        rw [if_neg hnot] at hne
        exact hne rfl
      obtain ⟨hid, hleased, hworker, deadline, hdeadline, haccepted⟩ := hguard
      refine ⟨row, rfl, deadline, hdeadline, ?_⟩
      by_contra hpassed
      have hrow' : before.1.db.jobs.row? delivery.job.id = some row := by
        rw [← hid, Jobs.id_of_row? hrow, hrow]
      exact hintime i delivery kind result hevent (overrun_iff.mpr
        ⟨row, deadline, hrow', hleased, hworker.2, hdeadline, haccepted, not_le.mp hpassed⟩)

/-- The same for runs: every settle statement of a run changes a row only under a live lease
exactly if none of them settles an overrun delivery. -/
theorem settledLive_run_iff {start finish : State × ℚ} {es : List (Event × ℚ)} :
    Run (Throughout (ClockedStep timeText) SettledLive) start es finish ↔
      Run (Throughout (ClockedStep timeText) SettlesInTime) start es finish :=
  ⟨fun h ↦ h.mono fun _ _ _ h ↦ ⟨h.1, (settledLive_iff h.1).mp h.2⟩,
    fun h ↦ h.mono fun _ _ _ h ↦ ⟨h.1, (settledLive_iff h.1).mpr h.2⟩⟩

/-- A handler that takes 100 seconds under a lease of 60, and no reaper. -/
def slowHandler : List (Action × ℚ) :=
  [(.enqueue 0 ⟨"email", "null", 0, 5, 0, none, 0⟩, 0),
    (.claim 1 ⟨"w1", 60, 1, 300, ["email"]⟩ 0, 0),
    (.handled 1 .returned, 100)]

theorem slowHandler_settles :
    (actAt wholeSeconds (runClocked slowHandler).2 (.resume 1, 100)).isSome := by decide +kernel

/-- Its job becomes done at clock 100, when the lease had run out at 60. -/
theorem slowHandler_settles_late :
    Run (ClockedStep wholeSeconds) (.start .empty, 0) (runClocked slowHandler).1
        (runClocked slowHandler).2 ∧
      ∃ e after, ClockedStep wholeSeconds (runClocked slowHandler).2 e after ∧
        ¬ SettledLive (runClocked slowHandler).2 e after := by
  refine ⟨run_runClocked slowHandler, _, _,
    clockedStep_actAt (Option.some_get slowHandler_settles).symm, fun hlive ↦ ?_⟩
  refine absurd (hlive 1 ⟨⟨"w1", 60, 1, 300, ["email"]⟩,
    ⟨1, "email", "\x7b\x7d", .leased, 0, 1, 5, 0, some 60, some "w1", none, none, 0, 0⟩, 0,
    some .returned⟩ .ack (.ok ()) ?_ 1 ?_) ?_
  all_goals decide +kernel

end Relay.System
