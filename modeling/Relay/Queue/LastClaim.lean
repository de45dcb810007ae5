import Relay.Queue.ExclusiveLease
import Relay.Queue.RowInvariants

/-!
# The claim behind a lease

A leased row belongs to the last claim of its job: the worker of the row made that claim, and since
then the job was neither claimed again nor reaped nor settled, only its lease extended
(`held_by_last_claim`). This is `Lease.held_history` read through `leaseEvent`.
-/

set_option autoImplicit false
set_option relaxedAutoImplicit false

namespace Relay.Queue

open Foundations Store

variable {τ : Type*} {j : ℕ}

/-- A successful claim of job `j` under a worker id. -/
def Event.ClaimsAs (j : ℕ) (workerId : Option String) : Event τ → Prop
  | ⟨.claim workerId' .., .claimed job⟩ => workerId' = workerId ∧ job.map JobRow.id = some j
  | _ => False

/-- The step ends a delivery of job `j`: the reaper takes the job, or an `ack`, `fail` or `bury`
of it succeeds. -/
def Event.Ends (j : ℕ) : Event τ → Prop
  | ⟨.settle (.extendLease _) .., _⟩ => False
  | ⟨.settle _ jobId _ _, .settled result⟩ => jobId = j ∧ result = .ok ()
  | ⟨.releaseExpired _, .touched ids⟩ => j ∈ ids
  | _ => False

instance (workerId : Option String) :
    DecidablePred (Event.ClaimsAs j workerId : Event τ → Prop) := by
  rintro ⟨statement, reply⟩
  cases statement with
  | claim _ _ _ _ =>
    cases reply with
    | claimed job => exact inferInstanceAs (Decidable (_ ∧ _))
    | _ => exact .isFalse id
  | _ => exact .isFalse id

instance : DecidablePred (Event.Ends j : Event τ → Prop) := by
  rintro ⟨statement, reply⟩
  cases statement with
  | settle kind _ _ _ =>
    cases kind with
    | extendLease _ => exact .isFalse id
    | _ =>
      cases reply with
      | settled result => exact inferInstanceAs (Decidable (_ ∧ _))
      | _ => exact .isFalse id
  | releaseExpired _ =>
    cases reply with
    | touched ids => exact inferInstanceAs (Decidable (j ∈ ids))
    | _ => exact .isFalse id
  | _ => exact .isFalse id

variable [Add τ]

theorem claimsAs_of_leaseEvent {e : Event τ} {workerId : Option String} {deadline time : τ}
    (h : leaseEvent j e = some (.grant workerId deadline time)) : e.ClaimsAs j workerId := by
  rcases leaseEvent_cases h with ⟨_, _, _, _, _, hid, rfl, hgrant⟩ | ⟨kind, _, _, _, hkind⟩ |
    ⟨_, _, _, _, hexpire⟩
  · cases hgrant
    exact ⟨rfl, congrArg some hid⟩
  · cases kind <;> cases hkind
  · cases hexpire

/-- A heartbeat is neither a claim nor the end of a delivery, and every other step of a job is. -/
theorem leaseEvent_of_ends {e : Event τ} (h : e.Ends j) :
    ∃ e', leaseEvent j e = some e' ∧ ∀ workerId deadline, e' ≠ .renew workerId deadline := by
  unfold Event.Ends at h
  split at h
  · exact h.elim
  · rename_i kind jobId workerId now result hkind
    obtain ⟨rfl, rfl⟩ := h
    refine ⟨_, if_pos rfl, ?_⟩
    cases kind with
    | extendLease leaseS => exact absurd rfl (hkind leaseS)
    | _ => exact nofun
  · rename_i now ids
    exact ⟨.expire now, if_pos h, nofun⟩
  · exact h.elim

variable [LinearOrder τ]

/-- A leased row belongs to the last claim of its job, which nothing has ended. -/
theorem held_by_last_claim {es : List (Event τ)} {jobs : Jobs τ}
    (hrun : Run Step Jobs.empty es jobs) {row : JobRow τ} (hrow : jobs.row? j = some row)
    (hleased : row.status = .leased) :
    ∃ before claim after, es = before ++ claim :: after ∧ claim.ClaimsAs j row.workerId ∧
      ∀ f ∈ after, ¬ f.Claims j ∧ ¬ f.Ends j := by
  have hcoherent := coherent_of_run hrun hrow
  obtain ⟨deadline, hdeadline⟩ := Option.isSome_iff_exists.mp (hcoherent.deadline.mpr hleased)
  have hlease := run_lease hrun j
  have hview : leaseView (jobs.row? j) = .held row.workerId deadline := by
    simp [hrow, leaseView, hleased, hdeadline]
  rw [hview] at hlease
  obtain ⟨granted, first, time, since, hhistory, hrenewals, -⟩ := Lease.held_history hlease
  obtain ⟨before, claim, after, rfl, hclaim, -, hafter⟩ := cut_of_filterMap hhistory
  refine ⟨before, claim, after, rfl, claimsAs_of_leaseEvent hclaim, fun f hf ↦ ⟨?_, ?_⟩⟩
  · intro hclaims
    obtain ⟨workerId, deadline', time', hgrant⟩ := leaseEvent_of_claims hclaims
    obtain ⟨later, hlater⟩ := hrenewals _ (hafter ▸ List.mem_filterMap.mpr ⟨f, hf, hgrant⟩)
    cases hlater
  · intro hends
    obtain ⟨e', hevent, hnot⟩ := leaseEvent_of_ends hends
    obtain ⟨later, hlater⟩ := hrenewals _ (hafter ▸ List.mem_filterMap.mpr ⟨f, hf, hevent⟩)
    exact hnot _ _ hlater

/-- A row that is leased or done carries the worker of the last claim of its job. -/
theorem owned_by_last_claim {es : List (Event τ)} {jobs : Jobs τ}
    (hrun : Run Step Jobs.empty es jobs) : ∀ row, jobs.row? j = some row →
      row.status = .leased ∨ row.status = .done →
      ∃ before claim after, es = before ++ claim :: after ∧ claim.ClaimsAs j row.workerId ∧
        ∀ f ∈ after, ¬ f.Claims j := by
  refine hrun.history (motive := fun es jobs ↦ ∀ row, jobs.row? j = some row →
    row.status = .leased ∨ row.status = .done →
      ∃ before claim after, es = before ++ claim :: after ∧ claim.ClaimsAs j row.workerId ∧
        ∀ f ∈ after, ¬ f.Claims j) ?_ ?_
  · intro row hrow
    cases hrow
  · intro es jobs e jobs' _ ih hstep row' hrow' howned
    have hrowStep := hstep.rowStep j
    rw [hrow'] at hrowStep
    -- a step that is no claim leaves the last claim what it was
    have hkept : ∀ row, jobs.row? j = some row → row.status = .leased ∨ row.status = .done →
        row.workerId = row'.workerId → ¬ e.Claims j →
        ∃ before claim after, es ++ [e] = before ++ claim :: after ∧
          claim.ClaimsAs j row'.workerId ∧ ∀ f ∈ after, ¬ f.Claims j := by
      intro row hrow hstatus hworker hclaims
      obtain ⟨before, claim, after, rfl, hclaim, hafter⟩ := ih row hrow hstatus
      refine ⟨before, claim, after ++ [e], by simp, hworker ▸ hclaim, fun f hf ↦ ?_⟩
      rcases List.mem_append.mp hf with hf | hf
      · exact hafter f hf
      · exact List.mem_singleton.mp hf ▸ hclaims
    generalize hbefore : jobs.row? j = before at hrowStep
    generalize hafter : some row' = after at hrowStep
    cases hrowStep with
    | onInsert args =>
      obtain rfl := Option.some.inj hafter
      rcases howned with h | h <;> cases h
    | onClaim workerId kinds leaseS now hid hclaim =>
      obtain rfl := Option.some.inj hafter
      exact ⟨es, _, [], rfl, ⟨rfl, congrArg some hid⟩, fun _ h ↦ nomatch h⟩
    | onSettle kind workerId now hguard =>
      obtain rfl := Option.some.inj hafter
      cases kind with
      | ack => exact hkept _ hbefore (.inl hguard.2.1) rfl id
      | extendLease leaseS => exact hkept _ hbefore (.inl hguard.2.1) rfl id
      | bury error => rcases howned with h | h <;> cases h
      | fail error retryIn =>
        simp only [SettleKind.set] at howned
        split_ifs at howned <;> rcases howned with h | h <;> cases h
    | onRelease now ids _ _ =>
      obtain rfl := Option.some.inj hafter
      simp only [released] at howned
      split_ifs at howned <;> rcases howned with h | h <;> cases h
    | onRequeue jobId now ids _ _ =>
      obtain rfl := Option.some.inj hafter
      rcases howned with h | h <;> cases h
    | untouched _ htouch =>
      exact hkept row' (hbefore.trans hafter.symm) howned rfl (mt Event.Claims.touches htouch)

end Relay.Queue
