import Relay.System.Clock
import Relay.System.DeliveryFencing
import Relay.Queue.Drain

/-!
# Retries by the clock

A `run_once` adds the retry delay to the reading of the clock it took before its claim, not to the
time of the failure, so after a slow handler the job is claimable before its backoff has passed
(`slowFailure_retried_early`). A job put back to `queued` waits for its `not_before` and for nothing
else (`Waits`, `claim_at`), so the backoff is waited for exactly when the handler took no time, or
when the settle statement came only after the whole backoff (`retry_waits_iff`).
-/

set_option autoImplicit false
set_option relaxedAutoImplicit false

namespace Relay.System

open Foundations Store Queue Scheduler Workers

/-- The backoff of a delivery: `base` before the first retry, twice as long each time, capped. -/
def Delivery.backoff (delivery : Delivery) : ℚ :=
  min delivery.worker.backoffCap
    (delivery.worker.backoffBase * 2 ^ (delivery.job.attempts - 1))

variable {timeText : ℚ → String} {j : ℕ} {due : ℚ}

/-! ### Waiting -/

/-- A job that was put back to `queued` until a time: it is still queued, or the time has come. -/
def Waits (j : ℕ) (due : ℚ) (s : State × ℚ) : Prop :=
  (∃ row, s.1.db.jobs.row? j = some row ∧ row.status = .queued ∧ row.notBefore = due) ∨ due ≤ s.2

/-- A claim reads the clock. -/
theorem reading?_of_claim {e : Event} {workerId : Option String} {kinds : Option (List String)}
    {leaseS now : ℚ} {reply : Reply ℚ}
    (h : e.queue? = some ⟨.claim workerId kinds leaseS now, reply⟩) : e.reading? = some now := by
  cases e with
  | call entry =>
    obtain rfl := Option.some.inj h
    rfl
  | claim i worker now' job =>
    obtain ⟨hstatement, -⟩ := Queue.Event.mk.inj (Option.some.inj h)
    cases hstatement
    rfl
  | _ => cases h

/-- A waiting job waits on, and a step that claims it comes when it is due. -/
theorem ClockedStep.waits {s t : State × ℚ} {e : Event × ℚ} (h : ClockedStep timeText s e t)
    (hwaits : Waits j due s) :
    Waits j due t ∧ (e.1.On (Queue.Event.Claims j) → due ≤ e.2) := by
  obtain ⟨hstep, hclock, hafter, hreading⟩ := h
  rcases hwaits with ⟨row, hrow, hqueued, rfl⟩ | hpassed
  · cases hentry : e.1.queue? with
    | none =>
      refine ⟨.inl ⟨row, by rw [hstep.queue_step.1 hentry, hrow], hqueued, rfl⟩, ?_⟩
      rintro ⟨entry, hsome, -⟩
      rw [hentry] at hsome
      cases hsome
    | some entry =>
      have hrowStep := (hstep.queue_step.2 entry hentry).rowStep j
      rw [hrow] at hrowStep
      rcases hrowStep.queued hqueued with ⟨hnew, hnot⟩ | ⟨_, _, _, now, rfl, hclaim, -⟩
      · refine ⟨.inl ⟨row, hnew, hqueued, rfl⟩, ?_⟩
        rintro ⟨entry', hsome, hclaims⟩
        obtain rfl := Option.some.inj (hentry.symm.trans hsome)
        exact absurd hclaims hnot
      · have hnow : now = e.2 := hreading now (reading?_of_claim hentry)
        have hdue : row.notBefore ≤ e.2 := hnow ▸ hclaim.1.2
        exact ⟨.inr (hafter ▸ hdue), fun _ ↦ hdue⟩
  · exact ⟨.inr (hafter ▸ hpassed.trans hclock), fun _ ↦ hpassed.trans hclock⟩

/-- No claim of a waiting job comes before it is due, or before the clock. -/
theorem le_of_claims {s t : State × ℚ} {es : List (Event × ℚ)}
    (hrun : Run (ClockedStep timeText) s es t) (hwaits : Waits j due s) :
    ∀ e ∈ es, s.2 ≤ e.2 ∧ (e.1.On (Queue.Event.Claims j) → due ≤ e.2) := by
  induction hrun with
  | nil => exact fun _ h ↦ nomatch h
  | cons head _ ih =>
    obtain ⟨hnext, hclaim⟩ := head.waits hwaits
    intro e he
    rcases List.mem_cons.mp he with rfl | he
    · exact ⟨head.2.1, hclaim⟩
    · obtain ⟨hle, hlater⟩ := ih hnext e he
      exact ⟨(head.2.1.trans head.2.2.1.ge).trans hle, hlater⟩

/-- A job that is ready can be claimed, after the jobs before it in the queue. -/
theorem claim_at (timeText : ℚ → String) {now : ℚ} (rows : List (JobRow ℚ)) :
    ∀ s : State × ℚ, s.2 ≤ now →
    claimableRows s.1.db.jobs none now = rows → ∀ row ∈ rows,
      ∃ es t e, Run (ClockedStep timeText) s es t ∧ e ∈ es ∧
        e.1.On (Queue.Event.Claims row.id) ∧ e.2 = now := by
  induction rows with
  | nil => exact fun _ _ _ _ h ↦ nomatch h
  | cons first rest ih =>
    intro s hclock hrows row hrow
    rcases claim_first s.1.db.jobs (some "worker") none 60 now with
      ⟨hnil, -⟩ | ⟨row', rest', jobs', hrows', hclaim, htail⟩
    · rw [hnil] at hrows
      cases hrows
    · obtain ⟨rfl, rfl⟩ := List.cons.inj (hrows'.symm.trans hrows)
      have hstep : ClockedStep timeText s
          (.call ⟨.claim (some "worker") none 60 now,
            .claimed (some (claimed (some "worker") 60 now row'))⟩, now)
          (s.1.setJobs jobs', now) := by
        refine ⟨?_, hclock, rfl, by rintro _ ⟨⟩; rfl⟩
        have h := @Step.call timeText s.1 (.claim (some "worker") none 60 now) trivial
        simp only [perform, hclaim] at h
        exact h
      rcases List.mem_cons.mp hrow with rfl | hrest
      · exact ⟨_, _, _, .single hstep, List.mem_singleton_self _, ⟨_, rfl, rfl⟩, rfl⟩
      · obtain ⟨es, t, e, hrun, he, hclaims, hnow⟩ :=
          ih (s.1.setJobs jobs', now) le_rfl htail row hrest
        exact ⟨_, t, e, .cons hstep hrun, List.mem_cons_of_mem _ he, hclaims, hnow⟩

/-! ### The failing settle -/

theorem delay_of_settleKind {delivery : Delivery} {outcome : Outcome} {error : String} {delay : ℚ}
    (h : settleKind delivery.worker delivery.job outcome = .ok (.fail error delay)) :
    delay = delivery.backoff := by
  rcases settleKind_ok h with ⟨-, hkind⟩ | ⟨_, -, hkind⟩ | ⟨_, _, -, hdelay, hkind⟩
  · cases hkind
  · cases hkind
  · cases hkind
    rw [backoff, powTwo] at hdelay
    split_ifs at hdelay
    · cases hdelay
      rfl
    · cases hdelay

/-- A job that a `fail` of `run_once` has put back to `queued` is due one backoff after the reading
before its claim. -/
theorem notBefore_of_fail {s t : State} {i : ℕ} {delivery : Delivery} {error : String} {delay : ℚ}
    (h : Step timeText s (.settle i delivery (.fail error delay) (.ok ())) t) {row : JobRow ℚ}
    (hrow : t.db.jobs.row? delivery.job.id = some row) :
    row.notBefore = delivery.now + delivery.backoff := by
  have hdelay : delay = delivery.backoff := by
    generalize hresult : (Except.ok () : Except PyError Unit) = result at h
    cases h with
    | settle _ _ outcome _ _ _ hkind => exact delay_of_settleKind hkind
  have hstep := (h.queue_step.2 _ rfl).rowStep delivery.job.id
  rw [hrow] at hstep
  generalize s.db.jobs.row? delivery.job.id = before at hstep
  generalize hnew : some row = after at hstep
  cases hstep with
  | onSettle _ _ _ _ =>
    obtain rfl := Option.some.inj hnew
    exact congrArg (delivery.now + ·) hdelay
  | untouched _ htouch => exact absurd ⟨rfl, rfl⟩ htouch

/-- A failed job waits for the backoff from its failure on exactly when the handler took no time or
the whole backoff had passed at its settle statement. Take a run to the settle statement, at `t₂`,
of a call whose handler raised at `t₁`, and let the statement put the job back to `queued`: in every
run from there on, no claim returns the job before `t₁` plus the backoff of the delivery, exactly
under that condition. -/
theorem retry_waits_iff {start middle : State × ℚ} {before between : List (Event × ℚ)} {i : ℕ}
    {delivery : Delivery} {error : Except PyError String} {error' : String} {delay t₁ t₂ : ℚ}
    {row : JobRow ℚ}
    (hfailed : Run (ClockedStep timeText) start (before ++ (.handled i (.exception error), t₁) ::
      (between ++ [(.settle i delivery (.fail error' delay) (.ok ()), t₂)])) middle)
    (hrow : middle.1.db.jobs.row? delivery.job.id = some row) (hqueued : row.status = .queued) :
    (∀ after finish, Run (ClockedStep timeText) middle after finish →
      ∀ e ∈ after, e.1.On (Queue.Event.Claims delivery.job.id) → t₁ + delivery.backoff ≤ e.2) ↔
    (t₁ ≤ delivery.now ∨ t₁ + delivery.backoff ≤ t₂) := by
  rw [← List.cons_append, ← List.append_assoc] at hfailed
  obtain ⟨_, -, hsettle⟩ := Run.append_iff.mp hfailed
  obtain ⟨_, ⟨hstep, -, hclock, -⟩, hnil⟩ := Run.cons_iff.mp hsettle
  obtain rfl := Run.nil_iff.mp hnil
  have hdue : row.notBefore = delivery.now + delivery.backoff := notBefore_of_fail hstep hrow
  constructor
  · intro hwaits
    by_contra hearly
    obtain ⟨hslow, hsoon⟩ := not_or.mp hearly
    -- the job can be claimed as soon as it is due
    have hready : Ready (max t₂ row.notBefore) row := ⟨hqueued, le_max_right _ _⟩
    obtain ⟨after, finish, e, hrun, he, hclaims, hnow⟩ := claim_at timeText _ _
      (hclock.le.trans (le_max_left t₂ row.notBefore)) rfl row
      (mem_claimableRows.mpr ⟨Jobs.mem_of_row? hrow, hready, nofun⟩)
    have hbound := hwaits after finish hrun e he (Jobs.id_of_row? hrow ▸ hclaims)
    rw [hnow, hdue] at hbound
    rcases le_max_iff.mp hbound with hle | hle
    · exact hsoon hle
    · exact hslow (by linarith)
  · intro hcondition after finish hrun e he hclaims
    obtain ⟨hle, hlater⟩ := le_of_claims hrun (.inl ⟨row, hrow, hqueued, hdue⟩) e he
    rcases hcondition with hinstant | hpassed
    · have := hlater hclaims
      linarith
    · exact hpassed.trans (hclock.ge.trans hle)

/-- The first delivery of a job, whose handler raises after some time. -/
def failedJob (time : ℚ) : List (Action × ℚ) :=
  [(.enqueue 0 ⟨"email", "null", 0, 5, 0, none, 0⟩, 0),
    (.claim 1 ⟨"w1", 60, 1, 300, ["email"]⟩ 0, 0),
    (.handled 1 (.exception (.ok "ValueError()")), time), (.resume 1, time)]

/-- What the `run_once` of `failedJob` has in hand when it settles. -/
def failedDelivery : Delivery where
  worker := ⟨"w1", 60, 1, 300, ["email"]⟩
  job := ⟨1, "email", "\x7b\x7d", .leased, 0, 1, 5, 0, some 60, some "w1", none, none, 0, 0⟩
  now := 0
  outcome := some (.exception (.ok "ValueError()"))

/-- The job of `failedDelivery` after its settle statement. -/
def failedRow : JobRow ℚ :=
  ⟨1, "email", "\x7b\x7d", .queued, 0, 1, 5, 1, none, none, none, some "ValueError()", 0, 0⟩

theorem retry_waits_iff_failedJob :
    (∀ after finish, Run (ClockedStep wholeSeconds) (runClocked (failedJob 0)).2 after finish →
      ∀ e ∈ after, e.1.On (Queue.Event.Claims 1) → 0 + failedDelivery.backoff ≤ e.2) ↔
    ((0 : ℚ) ≤ failedDelivery.now ∨ 0 + failedDelivery.backoff ≤ 0) := by
  have hrun := run_runClocked (failedJob 0)
  have hhistory : (runClocked (failedJob 0)).1 = (runClocked (failedJob 0)).1.take 2 ++
      (.handled 1 (.exception (.ok "ValueError()")), 0) ::
        ([] ++ [(.settle 1 failedDelivery (.fail "ValueError()" 1) (.ok ()), 0)]) := by
    decide +kernel
  have hrow : (runClocked (failedJob 0)).2.1.db.jobs.row? 1 = some failedRow := by decide +kernel
  rw [hhistory] at hrun
  exact retry_waits_iff hrun hrow rfl

theorem failedJob_claimed : (actAt wholeSeconds (runClocked (failedJob 30)).2
    (.claim 2 ⟨"w2", 60, 1, 300, ["email"]⟩ 30, 30)).isSome := by decide +kernel

/-- A handler that takes 30 seconds raises at 30. The job is put back to `queued`, and another
worker claims it at 30, when its backoff of a second has not passed. -/
theorem slowFailure_retried_early :
    ∃ before e finish, Run (ClockedStep wholeSeconds) (.start .empty, 0)
        (before ++ (.handled 1 (.exception (.ok "ValueError()")), 30) ::
          ([] ++ [(.settle 1 failedDelivery (.fail "ValueError()" 1) (.ok ()), 30)]))
        (runClocked (failedJob 30)).2 ∧
      (runClocked (failedJob 30)).2.1.db.jobs.row? 1 = some failedRow ∧
      failedRow.status = .queued ∧
      Run (ClockedStep wholeSeconds) (runClocked (failedJob 30)).2 [e] finish ∧
      e.1.On (Queue.Event.Claims 1) ∧ e.2 < 30 + failedDelivery.backoff := by
  have hrun := run_runClocked (failedJob 30)
  have hhistory : (runClocked (failedJob 30)).1 = (runClocked (failedJob 30)).1.take 2 ++
      (.handled 1 (.exception (.ok "ValueError()")), 30) ::
        ([] ++ [(.settle 1 failedDelivery (.fail "ValueError()" 1) (.ok ()), 30)]) := by
    decide +kernel
  rw [hhistory] at hrun
  refine ⟨_, _, _, hrun, by decide +kernel, rfl,
    .single (clockedStep_actAt (Option.some_get failedJob_claimed).symm), ?_, ?_⟩
  · decide +kernel
  · decide +kernel

end Relay.System
