import Relay.Queue.ExclusiveLease

/-!
# Leases that are cut short

A claim or a heartbeat that succeeds grants the worker a deadline. A heartbeat writes the deadline
it is given whatever the old one was, so one for a shorter time takes back what was granted before
(`shortHeartbeat_cuts_lease`). There is no other way to lose a lease early: in a run without such
heartbeats every granted lease is kept to its deadline or until its worker settles the delivery
(`leases_kept`).
-/

set_option autoImplicit false
set_option relaxedAutoImplicit false

namespace Relay.Queue

open Foundations Store

variable {τ : Type*} {j : ℕ} {workerId : String}

/-- The time in a statement. -/
def Event.time? : Event τ → Option τ
  | ⟨.insert args, _⟩ => some args.now
  | ⟨.selectKey _, _⟩ => none
  | ⟨.claim _ _ _ now, _⟩ => some now
  | ⟨.settle _ _ _ now, _⟩ => some now
  | ⟨.releaseExpired now, _⟩ => some now
  | ⟨.requeueDead _ now, _⟩ => some now

/-- The times of the statements never decrease along the history. -/
def TimesNeverDecrease [LE τ] (es : List (Event τ)) : Prop :=
  (es.filterMap Event.time?).Pairwise (· ≤ ·)

instance [LE τ] [DecidableLE τ] (es : List (Event τ)) : Decidable (TimesNeverDecrease es) :=
  inferInstanceAs (Decidable (List.Pairwise _ _))

/-- A successful claim or heartbeat gives the worker a deadline for job `j`. -/
def Event.Grants [Add τ] (j : ℕ) (workerId : String) (deadline : τ) : Event τ → Prop
  | ⟨.claim worker? _ leaseS now, .claimed (some job)⟩ =>
    worker? = some workerId ∧ job.id = j ∧ deadline = now + leaseS
  | ⟨.settle (.extendLease leaseS) jobId worker? now, .settled (.ok ())⟩ =>
    worker? = some workerId ∧ jobId = j ∧ deadline = now + leaseS
  | _ => False

/-- The worker settles its delivery of job `j`: its `ack`, `fail` or `bury` succeeds. -/
def Event.SettlesAs (j : ℕ) (workerId : String) : Event τ → Prop
  | ⟨.settle (.extendLease _) .., _⟩ => False
  | ⟨.settle _ jobId worker? _, .settled (.ok ())⟩ => jobId = j ∧ worker? = some workerId
  | _ => False

/-- The step goes against a lease of job `j` that a worker has until the deadline: the reaper takes
the job, or a statement of the worker is refused. -/
def Event.CutsShort [LE τ] (j : ℕ) (workerId : String) (deadline : τ) : Event τ → Prop
  | ⟨.releaseExpired now, .touched ids⟩ => now ≤ deadline ∧ j ∈ ids
  | ⟨.settle _ jobId worker? now, .settled result⟩ =>
    now ≤ deadline ∧ jobId = j ∧ worker? = some workerId ∧ result ≠ .ok ()
  | _ => False

/-- No lease is cut short: after a claim or a heartbeat that gave a worker a deadline, and before
the worker settles the delivery, no step goes against the lease. -/
def LeasesKept [Add τ] [LE τ] (es : List (Event τ)) : Prop :=
  ∀ before grant between e after j workerId deadline,
    es = before ++ grant :: (between ++ e :: after) → grant.Grants j workerId deadline →
    (∀ f ∈ between, ¬ f.SettlesAs j workerId) → ¬ e.CutsShort j workerId deadline

/-- The step is no heartbeat that succeeds and moves the deadline of its job to an earlier time. -/
def KeepsDeadline [Add τ] [LE τ] (jobs : Jobs τ) : Event τ → Jobs τ → Prop
  | ⟨.settle (.extendLease leaseS) jobId _ now, .settled (.ok ())⟩, _ =>
    ∀ row ∈ jobs.row? jobId, ∀ deadline ∈ row.leaseUntil, deadline ≤ now + leaseS
  | _, _ => True

theorem leaseView_eq_held {row? : Option (JobRow τ)} {owner : Option String} {deadline : τ} :
    leaseView row? = .held owner deadline ↔ ∃ row, row? = some row ∧ row.status = .leased ∧
      row.workerId = owner ∧ row.leaseUntil = some deadline := by
  cases row? with
  | none => simp [leaseView]
  | some row => cases hstatus : row.status <;> cases hdeadline : row.leaseUntil <;>
      simp [leaseView, hstatus, hdeadline]

section Events

variable [Add τ] {e : Event τ}

theorem leaseEvent_eq_renew {owner : Option String} {later : τ}
    (h : leaseEvent j e = some (.renew owner later)) : ∃ leaseS now,
      e = ⟨.settle (.extendLease leaseS) j owner now, .settled (.ok ())⟩ ∧
        later = now + leaseS := by
  rcases leaseEvent_cases h with ⟨_, _, _, _, _, _, _, hgrant⟩ | ⟨kind, _, now, rfl, hkind⟩ |
    ⟨_, _, _, _, hexpire⟩
  · cases hgrant
  · cases kind <;> cases hkind
    exact ⟨_, now, rfl, rfl⟩
  · cases hexpire

/-- The protocol events that end a lease for its owner are settle statements of the owner. -/
theorem settlesAs_of_leaseEvent (h : leaseEvent j e = some (.surrender (some workerId)) ∨
    leaseEvent j e = some (.retire (some workerId))) : e.SettlesAs j workerId := by
  obtain ⟨event, hevent, hends⟩ : ∃ event, leaseEvent j e = some event ∧
      (event = .surrender (some workerId) ∨ event = .retire (some workerId)) := by
    rcases h with h | h
    · exact ⟨_, h, .inl rfl⟩
    · exact ⟨_, h, .inr rfl⟩
  rcases leaseEvent_cases hevent with ⟨_, _, _, _, _, _, _, rfl⟩ | ⟨kind, _, now, rfl, rfl⟩ |
    ⟨_, _, _, _, rfl⟩
  · simp at hends
  · cases kind <;> rcases hends with hend | hend <;> cases hend
    all_goals exact ⟨rfl, rfl⟩
  · simp at hends

theorem Event.Grants.leaseEvent {deadline : τ} (h : e.Grants j workerId deadline) :
    (∃ time, leaseEvent j e = some (.grant (some workerId) deadline time)) ∨
      leaseEvent j e = some (.renew (some workerId) deadline) := by
  unfold Event.Grants at h
  split at h
  · obtain ⟨rfl, rfl, rfl⟩ := h
    exact .inl ⟨_, leaseEvent_claim rfl⟩
  · obtain ⟨rfl, rfl, rfl⟩ := h
    exact .inr (if_pos rfl)
  · exact h.elim

omit [Add τ] in
theorem Event.CutsShort.time? [LE τ] {deadline : τ} (h : e.CutsShort j workerId deadline) :
    ∃ now, e.time? = some now ∧ now ≤ deadline := by
  unfold Event.CutsShort at h
  split at h
  · exact ⟨_, rfl, h.1⟩
  · exact ⟨_, rfl, h.1⟩
  · exact h.elim

theorem time?_of_leaseEvent_expire {time : τ} (h : leaseEvent j e = some (.expire time)) :
    e.time? = some time := by
  have hlease := leaseTime?_of_leaseEvent_expire h
  unfold Event.leaseTime? at hlease
  split at hlease
  · exact hlease
  · exact hlease
  · cases hlease

end Events

section Protocol

variable [Add τ] [LinearOrder τ] {jobs jobs' : Jobs τ} {e : Event τ} {es : List (Event τ)}
  {deadline : τ}

/-- A run without heartbeats that shorten a lease is such a run of the lease protocol. -/
theorem run_lease_never_shortens (h : Run (Throughout Step KeepsDeadline) jobs es jobs') (j : ℕ) :
    Run (Throughout Lease.Step Lease.NeverShortens) (leaseView (jobs.row? j))
      (es.filterMap (leaseEvent j)) (leaseView (jobs'.row? j)) := by
  refine h.project (fun jobs ↦ leaseView (jobs.row? j)) (leaseEvent j)
    (fun _ _ _ hstep hnone ↦ (hstep.1.rowStep j).lease_step.1 hnone) ?_
  rintro jobs e jobs' e' ⟨hstep, hkeeps⟩ hevent
  refine ⟨(hstep.rowStep j).lease_step.2 e' hevent, ?_⟩
  rintro owner deadline later hheld rfl
  obtain ⟨leaseS, now, rfl, rfl⟩ := leaseEvent_eq_renew hevent
  obtain ⟨row, hrow, -, -, hdeadline⟩ := leaseView_eq_held.mp hheld
  exact hkeeps row hrow deadline hdeadline

/-- After a grant the worker has the lease, with the deadline it was given. -/
theorem Step.held_of_grants (h : Step jobs e jobs') (hgrant : e.Grants j workerId deadline) :
    leaseView (jobs'.row? j) = .held (some workerId) deadline := by
  have hlease := (h.rowStep j).lease_step.2
  generalize leaseView (jobs.row? j) = before at hlease
  generalize leaseView (jobs'.row? j) = after at hlease ⊢
  rcases hgrant.leaseEvent with ⟨time, hevent⟩ | hevent
  · cases hlease _ hevent
    rfl
  · cases hlease _ hevent
    rfl

/-- No step goes against a lease before its deadline. -/
theorem Step.not_cutsShort (h : Step jobs e jobs') {later : τ} (hle : deadline ≤ later)
    (hheld : leaseView (jobs.row? j) = .held (some workerId) later) :
    ¬ e.CutsShort j workerId deadline := by
  intro hcut
  unfold Event.CutsShort at hcut
  split at hcut
  · rename_i now ids
    obtain ⟨hnow, hmem⟩ := hcut
    have hlease := (h.rowStep j).lease_step.2 (.expire now) (if_pos hmem)
    rw [hheld] at hlease
    generalize leaseView (jobs'.row? j) = after at hlease
    cases hlease with
    | expire _ passed => exact absurd (hnow.trans hle) (not_le.mpr passed)
  · rename_i kind jobId worker? now result
    obtain ⟨hnow, rfl, rfl, hresult⟩ := hcut
    obtain ⟨row, hrow, hleased, hworker, hdeadline⟩ := leaseView_eq_held.mp hheld
    have hguard : HoldsLease jobId (some workerId) now row :=
      ⟨Jobs.id_of_row? hrow, hleased, ⟨by rw [hworker]; rfl, hworker⟩, later, hdeadline,
        hnow.trans hle⟩
    have hok := (settle_ok_iff jobs kind jobId (some workerId) now).mpr ⟨row, hrow, hguard⟩
    have hreply := Reply.settled.inj (Prod.mk.inj h).2
    exact hresult (hreply.symm.trans hok)
  · exact hcut.elim

/-- In a run without heartbeats that shorten a lease, no lease is cut short. -/
theorem leases_kept (hrun : Run (Throughout Step KeepsDeadline) Jobs.empty es jobs)
    (hclock : TimesNeverDecrease es) : LeasesKept es := by
  rintro before grant between e after j workerId deadline rfl hgrant hsettles hcut
  obtain ⟨_, granted, _, hgrantStep, hrest⟩ := hrun.at_label
  obtain ⟨_, _, hbetween, hstep, _⟩ := hrest.at_label
  have hlease := run_lease_never_shortens hbetween j
  rw [hgrantStep.1.held_of_grants hgrant] at hlease
  have hends : ∀ e', e' ∈ between.filterMap (leaseEvent j) → e' ≠ .surrender (some workerId) ∧
      e' ≠ .retire (some workerId) := by
    intro e' he'
    obtain ⟨f, hf, hevent⟩ := List.mem_filterMap.mp he'
    constructor
    · rintro rfl
      exact hsettles f hf (settlesAs_of_leaseEvent (.inl hevent))
    · rintro rfl
      exact hsettles f hf (settlesAs_of_leaseEvent (.inr hevent))
  rcases Lease.kept hlease with ⟨later, hle, hheld⟩ | hmem | hmem | ⟨time, htime, hpassed⟩
  · exact hstep.1.not_cutsShort hle hheld hcut
  · exact (hends _ hmem).1 rfl
  · exact (hends _ hmem).2 rfl
  · -- the reaper came after the deadline, so this step does too
    obtain ⟨f, hf, hevent⟩ := List.mem_filterMap.mp htime
    obtain ⟨now, hnow, hle⟩ := hcut.time?
    rw [TimesNeverDecrease, List.pairwise_filterMap] at hclock
    have hpair := (List.pairwise_cons.mp (List.pairwise_append.mp hclock).2.1).2
    have hlast := (List.pairwise_append.mp hpair).2.2 f hf e (List.mem_cons_self ..) time
      (time?_of_leaseEvent_expire hevent) now hnow
    exact absurd (hlast.trans hle) (not_le.mpr hpassed)

end Protocol

/-- A worker with a lease until 60 sends a heartbeat for 100 at 1, the reaper comes at 70, and the
worker finishes at 101. -/
def longHeartbeat : List (Statement ℕ) :=
  [.insert (EnqueueArgs.mk "email" "null" 0 5 0 none 0),
    .claim (some "w1") none 60 0,
    .settle (.extendLease 100) 1 (some "w1") 1,
    .releaseExpired 70,
    .settle .ack 1 (some "w1") 101]

theorem run_longHeartbeat : Run (Throughout Step KeepsDeadline) Jobs.empty
    (exec Jobs.empty longHeartbeat).1 (exec Jobs.empty longHeartbeat).2 := by
  refine .cons ⟨rfl, trivial⟩ (.cons ⟨rfl, trivial⟩ (.cons ⟨rfl, ?_⟩ (.cons ⟨rfl, trivial⟩
    (.single ⟨rfl, trivial⟩))))
  rintro _ ⟨⟩ _ ⟨⟩
  decide

theorem leases_kept_longHeartbeat : LeasesKept (exec Jobs.empty longHeartbeat).1 :=
  leases_kept run_longHeartbeat (by decide)

/-- A worker with a lease until 60 sends a heartbeat for 5 at 1, and the reaper comes at 10. -/
def shortHeartbeat : List (Statement ℕ) :=
  [.insert (EnqueueArgs.mk "email" "null" 0 5 0 none 0),
    .claim (some "w1") none 60 0,
    .settle (.extendLease 5) 1 (some "w1") 1,
    .releaseExpired 10]

/-- The reaper takes the job, although the claim had given its worker the deadline 60. -/
theorem shortHeartbeat_cuts_lease :
    Run Step Jobs.empty (exec Jobs.empty shortHeartbeat).1 (exec Jobs.empty shortHeartbeat).2 ∧
      TimesNeverDecrease (exec Jobs.empty shortHeartbeat).1 ∧
      ¬ LeasesKept (exec Jobs.empty shortHeartbeat).1 := by
  refine ⟨run_exec Jobs.empty shortHeartbeat, by decide, fun hkept ↦ ?_⟩
  refine hkept ((exec Jobs.empty shortHeartbeat).1.take 1) _
    (((exec Jobs.empty shortHeartbeat).1.drop 2).take 1) _ [] 1 "w1" 60 rfl ?_ ?_ ?_
  · exact ⟨rfl, rfl, rfl⟩
  · rintro f hf
    rw [List.mem_singleton.mp hf]
    exact id
  · exact ⟨by decide, by decide⟩

end Relay.Queue
