import Relay.Queue.RowMachine
import Relay.Foundations.Commute
import Mathlib.Algebra.Order.Monoid.Unbundled.Basic

/-!
# Settling and reaping at one instant

A settle statement asks for `lease_until >= now`, the reaper for `lease_until < now`. So at one
instant they never match the same row (`apart_expired`), and a heartbeat that extends the lease from
that instant on does not change this. Settle statements of different jobs do not meet either
(`apart_settle`). Statements that are apart commute, and a batch of them may be run in any order
(`settles_commute`).
-/

set_option autoImplicit false
set_option relaxedAutoImplicit false

namespace Relay.Queue

open Foundations Store

variable {τ : Type*} [AddMonoid τ] [LinearOrder τ]

/-- The arguments of an `ack`, `fail`, `bury` or `extend_lease` other than its time. -/
structure SettleCall (τ : Type*) where
  kind : SettleKind τ
  jobId : ℕ
  workerId : Option String
deriving DecidableEq

/-- The statement of a call at a time. -/
def SettleCall.at (call : SettleCall τ) (now : τ) : Statement τ :=
  .settle call.kind call.jobId call.workerId now

/-- The calls never ask for a negative lease. -/
def SettleKind.LeaseNonneg : SettleKind τ → Prop
  | .extendLease leaseS => 0 ≤ leaseS
  | _ => True

instance [DecidableLE τ] (kind : SettleKind τ) : Decidable kind.LeaseNonneg :=
  match kind with
  | .extendLease leaseS => inferInstanceAs (Decidable (0 ≤ leaseS))
  | .ack | .fail .. | .bury _ => .isTrue trivial

/-- A row that a settle statement has written is not expired at its time. -/
theorem not_expired_set [AddLeftMono τ] {kind : SettleKind τ} (hlease : kind.LeaseNonneg) (now : τ)
    {row : JobRow τ} : ¬ Expired now (kind.set now row) := by
  rintro ⟨hleased, deadline, hdeadline, hlt⟩
  cases kind with
  | ack => cases hleased
  | bury error => cases hleased
  | fail error retryIn => cases hdeadline
  | extendLease leaseS =>
    obtain rfl := Option.some.inj hdeadline
    exact absurd (le_add_of_nonneg_right hlease) (not_le.mpr hlt)

/-- At one instant a settle statement and the reaper never match the same row. -/
theorem apart_expired [AddLeftMono τ] {kind : SettleKind τ} (hlease : kind.LeaseNonneg) (jobId : ℕ)
    (workerId : Option String) (now : τ) :
    Table.Apart (HoldsLease jobId workerId now) (kind.set now) (Expired now) (released now) where
  left := by
    rintro row ⟨-, -, -, deadline, hdeadline, hle⟩
    refine ⟨?_, not_expired_set hlease now⟩
    rintro ⟨-, deadline', hdeadline', hlt⟩
    rw [Option.mem_unique hdeadline' hdeadline] at hlt
    exact absurd hle (not_le.mpr hlt)
  right := by
    rintro row ⟨-, deadline, hdeadline, hlt⟩
    constructor
    · rintro ⟨-, -, -, deadline', hdeadline', hle⟩
      rw [Option.mem_unique hdeadline' hdeadline] at hle
      exact absurd hle (not_le.mpr hlt)
    · rintro ⟨-, -, -, deadline', hdeadline', -⟩
      cases hdeadline'

/-- Settle statements of different jobs never match the same row. -/
theorem apart_settle (kind kind' : SettleKind τ) {jobId jobId' : ℕ} (hne : jobId ≠ jobId')
    (workerId workerId' : Option String) (now : τ) :
    Table.Apart (HoldsLease jobId workerId now) (kind.set now) (HoldsLease jobId' workerId' now)
      (kind'.set now) where
  left := by
    rintro row ⟨rfl, -⟩
    have hid : (kind.set now row).id = row.id := congrArg Ticket.id (kind.ticket_set now row)
    exact ⟨fun h ↦ hne h.1, fun h ↦ hne (hid.symm.trans h.1)⟩
  right := by
    rintro row ⟨rfl, -⟩
    have hid : (kind'.set now row).id = row.id := congrArg Ticket.id (kind'.ticket_set now row)
    exact ⟨fun h ↦ hne h.1.symm, fun h ↦ hne (h.1.symm.trans hid)⟩

/-! ### Statements that commute -/

/-- A statement with its answer, and the table after it. -/
def answer (jobs : Jobs τ) (statement : Statement τ) : Event τ × Jobs τ :=
  (⟨statement, (perform jobs statement).2⟩, (perform jobs statement).1)

theorem settle_reply_update {p : JobRow τ → Prop} [DecidablePred p] {set : JobRow τ → JobRow τ}
    {kind : SettleKind τ} {jobId : ℕ} {workerId : Option String} {now : τ}
    (h : Table.Apart p set (HoldsLease jobId workerId now) (kind.set now))
    (keeps : ∀ row, (set row).ticket = row.ticket) (jobs : Jobs τ) :
    (settle (jobs.update p set keeps) kind jobId workerId now).2 =
      (settle jobs kind jobId workerId now).2 := by
  unfold settle
  simp only [Jobs.update, h.touched_updateWhere]

theorem commute_settle_settle {call call' : SettleCall τ} (hne : call.jobId ≠ call'.jobId)
    (now : τ) : Commute answer (call.at now) (call'.at now) := by
  have happart := apart_settle call.kind call'.kind hne call.workerId call'.workerId now
  refine ⟨fun jobs ↦ ?_, fun jobs ↦ ?_, fun jobs ↦ ?_⟩
  · exact congrArg (fun reply ↦ (⟨call.at now, .settled reply⟩ : Event τ))
      (settle_reply_update happart.symm (call'.kind.ticket_set now) jobs)
  · exact congrArg (fun reply ↦ (⟨call'.at now, .settled reply⟩ : Event τ))
      (settle_reply_update happart (call.kind.ticket_set now) jobs)
  · exact jobs.update_comm happart (call.kind.ticket_set now) (call'.kind.ticket_set now)

theorem commute_release_settle [AddLeftMono τ] {call : SettleCall τ}
    (hlease : call.kind.LeaseNonneg) (now : τ) :
    Commute answer (.releaseExpired now) (call.at now) := by
  have happart := apart_expired hlease call.jobId call.workerId now
  refine ⟨fun jobs ↦ ?_, fun jobs ↦ ?_, fun jobs ↦ ?_⟩
  · exact congrArg (fun rows ↦ (⟨.releaseExpired now, .touched (rows.map JobRow.id)⟩ : Event τ))
      (happart.touched_updateWhere jobs.rows)
  · exact congrArg (fun reply ↦ (⟨call.at now, .settled reply⟩ : Event τ))
      (settle_reply_update happart.symm (ticket_released now) jobs)
  · exact jobs.update_comm happart.symm (ticket_released now) (call.kind.ticket_set now)

/-- Settling and reaping at one instant commute. Take settle calls of different jobs, none with a
negative lease, and one `release_expired`, all at one time. In every two orders they leave the same
table and give the same answers: the same calls raise `StaleLeaseError`, and `release_expired`
touches the same rows. -/
theorem settles_commute [AddLeftMono τ] {calls : List (SettleCall τ)}
    (hdistinct : (calls.map SettleCall.jobId).Nodup)
    (hlease : ∀ call ∈ calls, call.kind.LeaseNonneg) (now : τ) (jobs : Jobs τ)
    {order order' : List (Statement τ)}
    (horder : order.Perm (.releaseExpired now :: calls.map fun call ↦ call.at now))
    (horder' : order'.Perm (.releaseExpired now :: calls.map fun call ↦ call.at now)) :
    (exec jobs order).2 = (exec jobs order').2 ∧
      (exec jobs order).1.Perm (exec jobs order').1 := by
  have hcommute : (.releaseExpired now :: calls.map fun call ↦ call.at now).Pairwise
      (Commute (answer (τ := τ))) := by
    refine List.pairwise_cons.mpr ⟨?_, List.pairwise_map.mpr ?_⟩
    · intro statement hstatement
      obtain ⟨call, hcall, rfl⟩ := List.mem_map.mp hstatement
      exact commute_release_settle (hlease call hcall) now
    · exact (List.pairwise_map.mp hdistinct).imp fun hne ↦ commute_settle_settle hne now
  have hcommute' : order.Pairwise (Commute (answer (τ := τ))) :=
    (horder.pairwise_iff fun h ↦ h.symm).mpr hcommute
  obtain ⟨hanswers, hstate⟩ := executeAll_perm (horder.trans horder'.symm) hcommute' jobs
  exact ⟨hstate, hanswers⟩

/-- Three jobs are claimed, two until 60 and one until 50. -/
def threeLeases : List (Statement ℕ) :=
  [.insert (EnqueueArgs.mk "email" "null" 0 5 0 none 0),
    .insert (EnqueueArgs.mk "email" "null" 0 5 0 none 0),
    .insert (EnqueueArgs.mk "email" "null" 0 5 0 none 0),
    .claim (some "w1") none 60 0, .claim (some "w1") none 60 0, .claim (some "w2") none 50 0]

/-- At 60 the first job is acknowledged, the second gets a heartbeat of no length, and the worker
of the third comes too late. -/
def atDeadline : List (SettleCall ℕ) :=
  [⟨.ack, 1, some "w1"⟩, ⟨.extendLease 0, 2, some "w1"⟩, ⟨.fail "boom" 5, 3, some "w2"⟩]

theorem settles_commute_atDeadline :
    (exec (exec Jobs.empty threeLeases).2 (.releaseExpired 60 :: atDeadline.map (·.at 60))).2 =
      (exec (exec Jobs.empty threeLeases).2
        (atDeadline.map (·.at 60) ++ [.releaseExpired 60])).2 :=
  (settles_commute (show (atDeadline.map SettleCall.jobId).Nodup by decide) (by decide) 60
    (exec Jobs.empty threeLeases).2 (.refl _) (List.perm_append_singleton _ _)).1

end Relay.Queue
