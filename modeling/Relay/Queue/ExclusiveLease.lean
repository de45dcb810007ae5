import Relay.Queue.RowMachine
import Relay.Foundations.Lease

/-!
# Exclusive leases

Every job follows the lease protocol of `Foundations.Lease`: `leaseView` reads the state of the
protocol off a row, `leaseEvent` its events off a history, and `RowStep.lease_step` shows that each
step of a row is the step of the protocol it stands for. The owners are worker ids. A claim is a
grant, a heartbeat a renewal, `fail` and `bury` give the lease back, `ack` retires the job, and the
reaper takes back leases whose deadline has passed. Inserts and `requeue_dead` leave the protocol
state as it is, since both queued and dead jobs are free of leases.

The protocol's law then gives `exclusive_leases` for every run of the queue, from any number of
workers and in any order, as long as the times passed to `claim` and `release_expired` do not
decrease. The times given to the other statements do not matter.
-/

set_option autoImplicit false
set_option relaxedAutoImplicit false

namespace Relay.Queue

open Foundations Store

variable {τ : Type*}

/-! ### The lease protocol of a job -/

/-- The protocol state of a job. A leased row without a deadline is never written, and could not
be claimed, settled or reaped. -/
def leaseView : Option (JobRow τ) → Lease.LeaseState (Option String) τ
  | none => .free
  | some row =>
    match row.status, row.leaseUntil with
    | .queued, _ => .free
    | .leased, some deadline => .held row.workerId deadline
    | .leased, none => .retired
    | .done, _ => .retired
    | .dead, _ => .free

/-- The protocol event of a successful settle statement. -/
def SettleKind.leaseEvent [Add τ] (workerId : Option String) (now : τ) :
    SettleKind τ → Lease.LeaseEvent (Option String) τ
  | .ack => .retire workerId
  | .fail .. => .surrender workerId
  | .bury _ => .surrender workerId
  | .extendLease leaseS => .renew workerId (now + leaseS)

/-- The protocol event of job `j` in a step, if it is one. -/
def leaseEvent [Add τ] (j : ℕ) : Event τ → Option (Lease.LeaseEvent (Option String) τ)
  | ⟨.claim workerId _ leaseS now, .claimed (some job)⟩ =>
    if job.id = j then some (.grant workerId (now + leaseS) now) else none
  | ⟨.settle kind jobId workerId now, .settled (.ok ())⟩ =>
    if jobId = j then some (kind.leaseEvent workerId now) else none
  | ⟨.releaseExpired now, .touched ids⟩ => if j ∈ ids then some (.expire now) else none
  | _ => none

/-- The last deadline a claim of job `j` was given: its own, or that of the latest successful
heartbeat after it and before the next claim of the job. -/
def lastDeadline [Add τ] (j : ℕ) (deadline : τ) (since : List (Event τ)) : τ :=
  Lease.lastDeadline deadline (Lease.ofDelivery (since.filterMap (leaseEvent j)))

/-- A claim of job `j` still has its lease at time `now`: its worker has not settled the delivery
and the last deadline it was given has not passed. -/
def HoldsLeaseAt [Add τ] [LE τ] (j : ℕ) (workerId : Option String) (deadline : τ)
    (since : List (Event τ)) (now : τ) : Prop :=
  Lease.Active workerId deadline (since.filterMap (leaseEvent j)) now

/-- A successful `fail` or `bury` of job `j` by a worker. -/
def Event.GivesBack (j : ℕ) (workerId : Option String) (e : Event τ) : Prop :=
  ∃ kind now, ((∃ error retryIn, kind = .fail error retryIn) ∨ ∃ error, kind = .bury error) ∧
    e = ⟨.settle kind j workerId now, .settled (.ok ())⟩

theorem not_touches_of_leaseEvent_none [Add τ] {j : ℕ} {e : Event τ} (h : ¬ e.Touches j) :
    leaseEvent j e = none := by
  obtain ⟨statement, reply⟩ := e
  cases statement <;> cases reply <;> try rfl
  case claim.claimed workerId kinds leaseS now job =>
    cases job with
    | none => rfl
    | some job => exact if_neg fun hid ↦ h (congrArg some hid)
  case settle.settled kind jobId workerId now result =>
    cases result with
    | error _ => rfl
    | ok _ => exact if_neg fun hid ↦ h ⟨hid, rfl⟩
  case releaseExpired.touched now ids => exact if_neg h

/-- The steps that are protocol events of job `j`. -/
theorem leaseEvent_cases [Add τ] {j : ℕ} {e : Event τ}
    {event : Lease.LeaseEvent (Option String) τ} (h : leaseEvent j e = some event) :
    (∃ workerId kinds leaseS now job, job.id = j ∧
      e = ⟨.claim workerId kinds leaseS now, .claimed (some job)⟩ ∧
        event = .grant workerId (now + leaseS) now) ∨
    (∃ kind workerId now, e = ⟨.settle kind j workerId now, .settled (.ok ())⟩ ∧
      event = kind.leaseEvent workerId now) ∨
    ∃ now ids, j ∈ ids ∧ e = ⟨.releaseExpired now, .touched ids⟩ ∧ event = .expire now := by
  unfold leaseEvent at h
  split at h
  · split_ifs at h with hid
    exact .inl ⟨_, _, _, _, _, hid, rfl, (Option.some.inj h).symm⟩
  · split_ifs at h with hid
    subst hid
    exact .inr (.inl ⟨_, _, _, rfl, (Option.some.inj h).symm⟩)
  · split_ifs at h with hmem
    exact .inr (.inr ⟨_, _, hmem, rfl, (Option.some.inj h).symm⟩)
  · cases h

theorem leaseEvent_eq_surrender [Add τ] {j : ℕ} {e : Event τ} {workerId : Option String}
    (h : leaseEvent j e = some (.surrender workerId)) : e.GivesBack j workerId := by
  rcases leaseEvent_cases h with ⟨_, _, _, _, _, _, _, hgrant⟩ | ⟨kind, _, now, rfl, hkind⟩ |
    ⟨_, _, _, _, hexpire⟩
  · cases hgrant
  · cases kind with
    | ack => cases hkind
    | fail error retryIn =>
      cases hkind
      exact ⟨_, now, .inl ⟨_, _, rfl⟩, rfl⟩
    | bury error =>
      cases hkind
      exact ⟨_, now, .inr ⟨_, rfl⟩, rfl⟩
    | extendLease leaseS => cases hkind
  · cases hexpire

/-- The times passed to `claim` and `release_expired`. -/
def Event.leaseTime? : Event τ → Option τ
  | ⟨.claim _ _ _ now, _⟩ => some now
  | ⟨.releaseExpired now, _⟩ => some now
  | _ => none

theorem leaseTime?_of_leaseEvent_expire [Add τ] {j : ℕ} {e : Event τ} {time : τ}
    (h : leaseEvent j e = some (.expire time)) : e.leaseTime? = some time := by
  rcases leaseEvent_cases h with ⟨_, _, _, _, _, _, _, hgrant⟩ | ⟨kind, _, _, _, hkind⟩ |
    ⟨_, _, _, rfl, hexpire⟩
  · cases hgrant
  · cases kind <;> cases hkind
  · cases hexpire
    rfl

/-- The times passed to `claim` and `release_expired` never decrease along the history. -/
def ClockNeverDecreases [LE τ] (es : List (Event τ)) : Prop :=
  (es.filterMap Event.leaseTime?).Pairwise (· ≤ ·)

instance [LE τ] [DecidableLE τ] (es : List (Event τ)) : Decidable (ClockNeverDecreases es) :=
  inferInstanceAs (Decidable (List.Pairwise _ _))

section Protocol

variable [Add τ] [LinearOrder τ]

/-- Each step of a row is the protocol step it stands for, or leaves the protocol state alone. -/
theorem RowStep.lease_step {j : ℕ} {e : Event τ} {row? row?' : Option (JobRow τ)}
    (h : RowStep j e row? row?') :
    (leaseEvent j e = none → leaseView row?' = leaseView row?) ∧
      ∀ e', leaseEvent j e = some e' → Lease.Step (leaseView row?) e' (leaseView row?') := by
  cases h with
  | onInsert args => exact ⟨fun _ ↦ rfl, fun _ h ↦ nomatch h⟩
  | onClaim workerId kinds leaseS now hid hclaim =>
    rename_i row
    have hview : leaseView (some row) = .free := by simp [leaseView, hclaim.1.1]
    have hevent : leaseEvent j ⟨.claim workerId kinds leaseS now,
        .claimed (some (claimed workerId leaseS now row))⟩ =
        some (.grant workerId (now + leaseS) now) := if_pos hid
    rw [hevent, hview]
    refine ⟨nofun, ?_⟩
    rintro _ ⟨⟩
    exact .grant workerId (now + leaseS) now
  | onSettle kind workerId now hguard =>
    rename_i row
    obtain ⟨rfl, hstatus, hworker, deadline, hdeadline, hle⟩ := hguard
    have hview : leaseView (some row) = .held workerId deadline := by
      simp [leaseView, hstatus, Option.mem_def.mp hdeadline, ← hworker.2]
    have hevent : leaseEvent row.id ⟨.settle kind row.id workerId now, .settled (.ok ())⟩ =
        some (kind.leaseEvent workerId now) := if_pos rfl
    rw [hevent, hview]
    refine ⟨nofun, ?_⟩
    rintro _ ⟨⟩
    cases kind with
    | ack => exact .retire workerId deadline
    | fail error retryIn =>
      have hfree : leaseView (some ((SettleKind.fail error retryIn).set now row)) = .free := by
        by_cases hspent : Exhausted row <;> simp [leaseView, SettleKind.set, hspent]
      rw [hfree]
      exact .surrender workerId deadline
    | bury error => exact .surrender workerId deadline
    | extendLease leaseS =>
      have hheld : leaseView (some ((SettleKind.extendLease leaseS).set now row)) =
          .held workerId (now + leaseS) := by
        simp [leaseView, SettleKind.set, hstatus, ← hworker.2]
      rw [hheld]
      exact .renew workerId deadline (now + leaseS)
  | onRelease now ids hmem hexpired =>
    rename_i row
    obtain ⟨hstatus, deadline, hdeadline, hlt⟩ := hexpired
    have hview : leaseView (some row) = .held row.workerId deadline := by
      simp [leaseView, hstatus, Option.mem_def.mp hdeadline]
    have hfree : leaseView (some (released now row)) = .free := by
      by_cases hspent : Exhausted row <;> simp [leaseView, released, hspent]
    have hevent : leaseEvent j (⟨.releaseExpired now, .touched ids⟩ : Event τ) =
        some (.expire now) := if_pos hmem
    rw [hevent, hview, hfree]
    refine ⟨nofun, ?_⟩
    rintro _ ⟨⟩
    exact .expire row.workerId hlt
  | onRequeue jobId now ids hmem hdead =>
    rename_i row
    have hview : leaseView (some row) = .free := by simp [leaseView, hdead.1]
    exact ⟨fun _ ↦ hview.symm, fun _ h ↦ nomatch h⟩
  | untouched _ htouch =>
    rw [not_touches_of_leaseEvent_none htouch]
    exact ⟨fun _ ↦ rfl, fun _ h ↦ nomatch h⟩

/-- Every run of the queue is, on every job, a run of the lease protocol. -/
theorem run_lease {jobs jobs' : Jobs τ} {es : List (Event τ)} (h : Run Step jobs es jobs') (j : ℕ) :
    Run Lease.Step (leaseView (jobs.row? j)) (es.filterMap (leaseEvent j))
      (leaseView (jobs'.row? j)) :=
  (run_row h j).project leaseView (leaseEvent j) (fun _ _ _ hstep hnone ↦ hstep.lease_step.1 hnone)
    fun _ _ _ e' hstep hsome ↦ hstep.lease_step.2 e' hsome

omit [LinearOrder τ] in
theorem leaseEvent_claim {j : ℕ} {workerId : Option String} {kinds : Option (List String)}
    {leaseS now : τ} {job : JobRow τ} (hid : job.id = j) :
    leaseEvent j ⟨.claim workerId kinds leaseS now, .claimed (some job)⟩ =
      some (.grant workerId (now + leaseS) now) := if_pos hid

omit [LinearOrder τ] in
theorem leaseEvent_of_claims {j : ℕ} {e : Event τ} (h : e.Claims j) :
    ∃ workerId deadline time, leaseEvent j e = some (.grant workerId deadline time) := by
  unfold Event.Claims at h
  split at h
  · obtain ⟨job, rfl, hid⟩ := Option.map_eq_some_iff.mp h
    exact ⟨_, _, _, leaseEvent_claim hid⟩
  · exact h.elim

omit [Add τ] in
/-- No claim or reap of the history before an event carries a later time than the event. -/
theorem ClockNeverDecreases.le {before after : List (Event τ)} {e f : Event τ} {first last : τ}
    (h : ClockNeverDecreases (before ++ e :: after)) (he : e.leaseTime? = some last)
    (hf : f ∈ before) (hfirst : f.leaseTime? = some first) : first ≤ last := by
  rw [ClockNeverDecreases, List.pairwise_filterMap, List.pairwise_append] at h
  exact h.2.2 f hf e (List.mem_cons_self ..) first hfirst last he

/-- Leases are exclusive. Of two successful claims of one job, the lease of the first was over
before the second: its worker gave the job back in between, or the last deadline it was given lies
strictly before the time of the second claim. So the first no longer holds its lease at any time
from the second claim on. After a successful `ack` the job is not claimed again. -/
theorem exclusive_leases {es : List (Event τ)} {jobs : Jobs τ}
    (hrun : Run Step Jobs.empty es jobs) (hclock : ClockNeverDecreases es) :
    (∀ before between after worker₁ kinds₁ lease₁ time₁ job₁ worker₂ kinds₂ lease₂ time₂ job₂,
      es = before ++ ⟨.claim worker₁ kinds₁ lease₁ time₁, .claimed (some job₁)⟩ ::
        (between ++ ⟨.claim worker₂ kinds₂ lease₂ time₂, .claimed (some job₂)⟩ :: after) →
      job₁.id = job₂.id →
      ((∃ e ∈ between, e.GivesBack job₁.id worker₁) ∨
        lastDeadline job₁.id (time₁ + lease₁) between < time₂) ∧
      ∀ now, time₂ ≤ now → ¬ HoldsLeaseAt job₁.id worker₁ (time₁ + lease₁)
        (between ++ ⟨.claim worker₂ kinds₂ lease₂ time₂, .claimed (some job₂)⟩ :: after) now) ∧
    ∀ before after jobId workerId now,
      es = before ++ ⟨.settle .ack jobId workerId now, .settled (.ok ())⟩ :: after →
      ∀ e ∈ after, ¬ e.Claims jobId := by
  constructor
  · rintro before between after worker₁ kinds₁ lease₁ time₁ job₁ worker₂ kinds₂ lease₂ time₂ job₂
      rfl hid
    have hlease := run_lease hrun job₁.id
    have hsecond : leaseEvent job₁.id
        ⟨.claim worker₂ kinds₂ lease₂ time₂, .claimed (some job₂)⟩ =
        some (.grant worker₂ (time₂ + lease₂) time₂) := leaseEvent_claim hid.symm
    rw [List.filterMap_append, List.filterMap_cons_some (leaseEvent_claim rfl),
      List.filterMap_append, List.filterMap_cons_some hsecond] at hlease
    have hexpire : ∀ time, .expire time ∈ between.filterMap (leaseEvent job₁.id) →
        time ≤ time₂ := by
      intro time htime
      obtain ⟨e, he, hevent⟩ := List.mem_filterMap.mp htime
      rw [← List.cons_append, ← List.append_assoc] at hclock
      exact hclock.le rfl (List.mem_append_right _ (List.mem_cons_of_mem _ he))
        (leaseTime?_of_leaseEvent_expire hevent)
    constructor
    · refine (Lease.exclusive hlease hexpire).imp (fun hsurrender ↦ ?_) id
      obtain ⟨e, he, hevent⟩ := List.mem_filterMap.mp (Lease.mem_of_mem_ofDelivery hsurrender)
      exact ⟨e, he, leaseEvent_eq_surrender hevent⟩
    · intro now hnow
      rw [HoldsLeaseAt, List.filterMap_append, List.filterMap_cons_some hsecond]
      exact Lease.not_active hlease hexpire hnow
  · rintro before after jobId workerId now rfl e he hclaim
    have hlease := run_lease hrun jobId
    have hack : leaseEvent jobId ⟨.settle .ack jobId workerId now, .settled (.ok ())⟩ =
        some (.retire workerId) := if_pos rfl
    rw [List.filterMap_append, List.filterMap_cons_some hack] at hlease
    have hnone := Lease.not_granted_after_retire hlease
    obtain ⟨worker, deadline, time, hgrant⟩ := leaseEvent_of_claims hclaim
    have hmem := List.mem_filterMap.mpr ⟨_, he, hgrant⟩
    rw [hnone] at hmem
    exact absurd hmem List.not_mem_nil

end Protocol

/-- A job whose worker stopped after a heartbeat: it is reaped after the renewed deadline and
claimed by another worker. -/
def reclaimedJob : List (Statement ℕ) :=
  [.insert (EnqueueArgs.mk "email" "null" 0 5 0 none 0),
    .claim (some "w1") none 60 0,
    .settle (.extendLease 60) 1 (some "w1") 50,
    .releaseExpired 111,
    .claim (some "w2") none 60 111]

theorem exclusive_leases_reclaimedJob :
    ¬ HoldsLeaseAt 1 (some "w1") (0 + 60) ((exec Jobs.empty reclaimedJob).1.drop 2) 111 :=
  ((exclusive_leases (run_exec Jobs.empty reclaimedJob) (by decide)).1
    ((exec Jobs.empty reclaimedJob).1.take 1) (((exec Jobs.empty reclaimedJob).1.drop 2).take 2)
    [] _ _ _ _ _ _ _ _ _ _ rfl rfl).2 111 le_rfl

end Relay.Queue
