import Relay.System.Execution
import Relay.Queue.LastClaim

/-!
# The rows are coherent

What holds of every row in every state that a run of the system reaches. The columns `status`,
`lease_until`, `worker_id` and `attempts` agree, the worker of a row is the one of the last claim of
its job, and a leased row can be settled or is reaped, and never both (`row_coherence`).
-/

set_option autoImplicit false
set_option relaxedAutoImplicit false

namespace Relay.System

open Foundations Store Queue Scheduler Workers

/-- A claim names its worker. -/
def NamesWorker : Queue.Event ℚ → Prop
  | ⟨.claim workerId .., _⟩ => workerId.isSome
  | _ => True

instance : DecidablePred NamesWorker
  | ⟨.claim workerId .., _⟩ => inferInstanceAs (Decidable (workerId.isSome = true))
  | ⟨.insert _, _⟩ | ⟨.selectKey _, _⟩ | ⟨.settle .., _⟩ | ⟨.releaseExpired _, _⟩
  | ⟨.requeueDead .., _⟩ => .isTrue trivial

theorem isSome_of_claimsAs {j : ℕ} {workerId : Option String} {entry : Queue.Event ℚ}
    (hclaim : entry.ClaimsAs j workerId) (hnames : NamesWorker entry) : workerId.isSome := by
  unfold Queue.Event.ClaimsAs at hclaim
  split at hclaim
  · exact hclaim.1 ▸ hnames
  · exact hclaim.elim

/-- Every row is coherent. Its deadline is set exactly when it is leased; it has no worker when it
is queued or dead, and the worker of the last claim of its job when it is leased or done; and it
has been delivered unless it is queued. So at every time a leased row can be settled by its worker,
in each of the four ways, or is taken by the reaper, and never both. -/
theorem row_coherence {timeText : ℚ → String} {es : List Event} {s : State}
    (hrun : Run (Step timeText) (.start .empty) es s)
    (hnames : ∀ entry ∈ es.filterMap Event.queue?, NamesWorker entry) {row : JobRow ℚ}
    (hrow : row ∈ s.db.jobs.rows) :
    (row.leaseUntil.isSome ↔ row.status = .leased) ∧
    (row.status = .queued ∨ row.status = .dead → row.workerId = none) ∧
    (row.status = .leased ∨ row.status = .done →
      ∃ before claim after, es.filterMap Event.queue? = before ++ claim :: after ∧
        claim.ClaimsAs row.id row.workerId ∧ ∀ f ∈ after, ¬ f.Claims row.id) ∧
    (row.status = .leased ∨ row.status = .done ∨ row.status = .dead → 1 ≤ row.attempts) ∧
    (row.status = .leased → ∀ now,
      ((∀ kind, (settle s.db.jobs kind row.id row.workerId now).2 = .ok ()) ∧
        ¬ Queue.Event.Releases row.id
          ⟨.releaseExpired now, (perform s.db.jobs (.releaseExpired now)).2⟩) ∨
      ((∀ kind, (settle s.db.jobs kind row.id row.workerId now).2 ≠ .ok ()) ∧
        Queue.Event.Releases row.id
          ⟨.releaseExpired now, (perform s.db.jobs (.releaseExpired now)).2⟩)) := by
  have hqueue := run_queue hrun
  have hcoherent : Coherent row := coherent_of_run hqueue (Jobs.row?_of_mem hrow)
  have howner := owned_by_last_claim hqueue row (Jobs.row?_of_mem hrow)
  refine ⟨hcoherent.deadline, hcoherent.unowned, howner, fun h ↦ hcoherent.delivered ?_,
    fun hleased now ↦ ?_⟩
  · rcases h with h | h | h <;> simp [h]
  · obtain ⟨before, claim, after, hhistory, hclaim, -⟩ := howner (.inl hleased)
    have hnamed := hnames claim (hhistory ▸ List.mem_append_right _ (List.mem_cons_self ..))
    exact settled_or_released hrow hcoherent hleased (isSome_of_claimsAs hclaim hnamed) now

/-- A worker has claimed a job and still runs its handler. -/
def runningJob : List Action :=
  [.enqueue 0 ⟨"email", "null", 0, 5, 0, none, 0⟩, .claim 1 ⟨"w1", 60, 1, 300, ["email"]⟩ 0]

theorem row_coherence_runningJob :
    (⟨1, "email", "\x7b\x7d", .leased, 0, 1, 5, 0, some 60, some "w1", none, none, 0, 0⟩ :
      JobRow ℚ).leaseUntil.isSome ↔ Status.leased = .leased := by
  have hrow : (⟨1, "email", "\x7b\x7d", .leased, 0, 1, 5, 0, some 60, some "w1", none, none, 0, 0⟩ :
      JobRow ℚ) ∈ (runActions wholeSeconds (.start .empty) runningJob).2.db.jobs.rows := by
    decide +kernel
  exact (row_coherence (run_runActions wholeSeconds (.start .empty) runningJob) (by decide +kernel)
    hrow).1

end Relay.System
