import Relay.System.Execution
import Relay.Queue.LastClaim

/-!
# Fencing of deliveries

The guard of a settle statement knows a delivery by its job, its worker id and a deadline. So what
it fences off are other worker ids: a settle statement of a `run_once` changes the database only
when the last claim of the job was made under the worker id of the delivery and nothing has ended
that claim (`delivery_fencing`). When no later claim of the job used the worker id, this claim is
the delivery's own. Two processes under one worker id are not told apart
(`sharedWorkerId_not_fenced`).
-/

set_option autoImplicit false
set_option relaxedAutoImplicit false

namespace Relay.System

open Foundations Store Queue Scheduler Workers

/-- The step is a statement on the jobs table with a property. -/
def Event.On (p : Queue.Event ℚ → Prop) (e : Event) : Prop := ∃ entry ∈ e.queue?, p entry

instance (p : Queue.Event ℚ → Prop) [DecidablePred p] : DecidablePred (Event.On p) :=
  fun e ↦ inferInstanceAs (Decidable (∃ entry ∈ e.queue?, p entry))

/-- The claim of call `i`, when it was given a job. -/
def Event.StartsDelivery (i : ℕ) : Event → Prop
  | .claim task _ _ (some _) => task = i
  | _ => False

instance (i : ℕ) : DecidablePred (Event.StartsDelivery i) := fun e ↦ by
  unfold Event.StartsDelivery
  split <;> infer_instance

/-- The history from the claim of call `i` on. -/
def fromClaim (i : ℕ) (es : List Event) : List Event :=
  es.dropWhile fun e ↦ ¬ e.StartsDelivery i

/-- The history after the claim of call `i`. -/
def sinceClaim (i : ℕ) (es : List Event) : List Event := (fromClaim i es).tail

variable {timeText : ℚ → String} {s t : State} {e : Event} {es : List Event}

theorem cut_of_fromClaim {i : ℕ} {claim : Event} (h : (fromClaim i es).head? = some claim) :
    ∃ before, es = before ++ claim :: sinceClaim i es := by
  refine ⟨es.takeWhile fun e ↦ ¬ e.StartsDelivery i, ?_⟩
  rw [sinceClaim, ← List.eq_cons_of_mem_head? h, fromClaim, List.takeWhile_append_dropWhile]

theorem fromClaim_append (i : ℕ) (es : List Event) (e : Event) : fromClaim i (es ++ [e]) =
    if fromClaim i es = [] then fromClaim i [e] else fromClaim i es ++ [e] := by
  rw [fromClaim, List.dropWhile_append]
  simp only [List.isEmpty_iff]
  rfl

/-! ### The claim of a delivery -/

theorem Event.StartsDelivery.task? {i : ℕ} (h : e.StartsDelivery i) : e.task? = some i := by
  unfold Event.StartsDelivery at h
  split at h
  · exact congrArg some h
  · exact h.elim

/-- A delivery in progress was claimed in the run, under the number of its call. -/
theorem delivery_claimed {db : Database} (hrun : Run (Step timeText) (.start db) es s) (i : ℕ) :
    (s.tasks i = none → fromClaim i es = []) ∧
      ∀ delivery, s.tasks i = some (.delivery delivery) → (fromClaim i es).head? =
        some (.claim i delivery.worker delivery.now (some delivery.job)) := by
  refine (run_task hrun i).history (motive := fun es task? ↦ (task? = none → fromClaim i es = []) ∧
      ∀ delivery, task? = some (.delivery delivery) → (fromClaim i es).head? =
        some (.claim i delivery.worker delivery.now (some delivery.job))) ?_ ?_
  · exact ⟨fun _ ↦ rfl, fun _ h ↦ nomatch h⟩
  · rintro es task? e task?' - ⟨hnone, hclaimed⟩ hstep
    have hkept : ∀ delivery, task? = some (.delivery delivery) →
        (fromClaim i (es ++ [e])).head? =
          some (.claim i delivery.worker delivery.now (some delivery.job)) := by
      intro delivery htask
      have hhead := hclaimed delivery htask
      have hne : fromClaim i es ≠ [] := by
        intro hnil
        rw [hnil] at hhead
        cases hhead
      rw [fromClaim_append, if_neg hne, List.head?_append_of_ne_nil _ hne, hhead]
    cases hstep with
    | claimed worker now job =>
      refine ⟨fun h ↦ (by cases h), ?_⟩
      rintro _ ⟨⟩
      rw [fromClaim_append, if_pos (hnone rfl)]
      simp [fromClaim, Event.StartsDelivery]
    | handled worker job now outcome =>
      have hsame := hkept ⟨worker, job, now, none⟩ rfl
      refine ⟨fun h ↦ (by cases h), ?_⟩
      rintro _ ⟨⟩
      exact hsame
    | other _ _ hi =>
      refine ⟨fun hnone' ↦ ?_, hkept⟩
      have hnot : ¬ e.StartsDelivery i := mt Event.StartsDelivery.task? hi
      rw [fromClaim_append, if_pos (hnone hnone')]
      simp [fromClaim, hnot]
    | _ => exact ⟨fun h ↦ (by cases h), fun _ h ↦ (by cases h)⟩

/-- The steps of a history that are statements on the jobs table with a property are those of the
history of the table. -/
theorem not_on_of_forall {p : Queue.Event ℚ → Prop}
    (h : ∀ entry ∈ es.filterMap Event.queue?, ¬ p entry) : ∀ f ∈ es, ¬ f.On p := by
  rintro f hf ⟨entry, hentry, hp⟩
  exact h entry (List.mem_filterMap.mpr ⟨f, hf, hentry⟩) hp

/-- A settle step that changes the database found the row leased under its worker id, so the last
claim of the job was made under it and is not over. -/
theorem last_claim_of_settle (hrun : Run (Step timeText) (.start .empty) es s) {i : ℕ}
    {delivery : Delivery} {kind : SettleKind ℚ} {result : Except PyError Unit}
    (hstep : Step timeText s (.settle i delivery kind result) t) (hchange : t.db ≠ s.db) :
    ∃ before claim after, es = before ++ claim :: after ∧
      claim.On (Queue.Event.ClaimsAs delivery.job.id (some delivery.worker.workerId)) ∧
      ∀ f ∈ after, ¬ f.On (Queue.Event.Claims delivery.job.id) ∧
        ¬ f.On (Queue.Event.Ends delivery.job.id) := by
  cases hstep
  have hok : (settle s.db.jobs kind delivery.job.id (some delivery.worker.workerId)
      delivery.now).2 = .ok () := by
    by_contra herror
    apply hchange
    rw [State.db_setTask, settle_error herror]
    rfl
  obtain ⟨row, hrow, -, hleased, hworker, -⟩ := (settle_ok_iff _ _ _ _ _).mp hok
  obtain ⟨before, claim, after, hhistory, hclaim, hafter⟩ :=
    held_by_last_claim (run_queue hrun) hrow hleased
  obtain ⟨first, e, last, rfl, he, -, rfl⟩ := cut_of_filterMap hhistory
  rw [hworker.2] at hclaim
  refine ⟨first, e, last, rfl, ⟨claim, he, hclaim⟩, fun f hf ↦ ⟨?_, ?_⟩⟩
  · exact not_on_of_forall (fun entry hentry ↦ (hafter entry hentry).1) f hf
  · exact not_on_of_forall (fun entry hentry ↦ (hafter entry hentry).2) f hf

/-- Deliveries are fenced by worker id. A delivery that is settled was claimed in the run. If its
settle statement changes the database, the last claim of the job was made under the worker id of
the delivery and nothing has ended it; and if no claim of the job since the delivery's own was made
under that id, it is the delivery's own. So the settle statement of a delivery that has been ended,
by the reaper or another settle, changes nothing unless a worker with the same id has claimed the
job since. -/
theorem delivery_fencing (hrun : Run (Step timeText) (.start .empty) es s) {i : ℕ}
    {delivery : Delivery} {kind : SettleKind ℚ} {result : Except PyError Unit}
    (hstep : Step timeText s (.settle i delivery kind result) t) :
    (fromClaim i es).head? = some (.claim i delivery.worker delivery.now (some delivery.job)) ∧
    (t.db ≠ s.db →
      (∃ before claim after, es = before ++ claim :: after ∧
        claim.On (Queue.Event.ClaimsAs delivery.job.id (some delivery.worker.workerId)) ∧
        ∀ f ∈ after, ¬ f.On (Queue.Event.Claims delivery.job.id) ∧
          ¬ f.On (Queue.Event.Ends delivery.job.id)) ∧
      ((∀ f ∈ sinceClaim i es,
          ¬ f.On (Queue.Event.ClaimsAs delivery.job.id (some delivery.worker.workerId))) →
        ∀ f ∈ sinceClaim i es, ¬ f.On (Queue.Event.Claims delivery.job.id) ∧
          ¬ f.On (Queue.Event.Ends delivery.job.id))) ∧
    ((∃ f ∈ sinceClaim i es, f.On (Queue.Event.Ends delivery.job.id)) →
      (∀ f ∈ sinceClaim i es,
        ¬ f.On (Queue.Event.ClaimsAs delivery.job.id (some delivery.worker.workerId))) →
      t.db = s.db) := by
  have hown : (fromClaim i es).head? =
      some (.claim i delivery.worker delivery.now (some delivery.job)) := by
    refine (delivery_claimed hrun i).2 delivery ?_
    cases hstep
    assumption
  have hstands : t.db ≠ s.db → (∀ f ∈ sinceClaim i es,
      ¬ f.On (Queue.Event.ClaimsAs delivery.job.id (some delivery.worker.workerId))) →
      ∀ f ∈ sinceClaim i es, ¬ f.On (Queue.Event.Claims delivery.job.id) ∧
        ¬ f.On (Queue.Event.Ends delivery.job.id) := by
    intro hchange hothers
    obtain ⟨before, claim, after, hcut, hclaim, hafter⟩ := last_claim_of_settle hrun hstep hchange
    obtain ⟨first, hcut'⟩ := cut_of_fromClaim hown
    rcases cut_cases (hcut.symm.trans hcut') with ⟨-, -, hsame⟩ | hmem | hmem
    · exact hsame ▸ hafter
    · exact absurd ⟨_, rfl, rfl⟩ (hafter _ hmem).1
    · exact absurd hclaim (hothers _ hmem)
  refine ⟨hown, fun hchange ↦ ⟨last_claim_of_settle hrun hstep hchange, hstands hchange⟩, ?_⟩
  rintro ⟨f, hf, hends⟩ hothers
  by_contra hchange
  exact (hstands hchange hothers f hf).2 hends

/-- Two deliveries of one job: the lease of the first runs out, the reaper takes the job, and the
second claim comes before the first handler is over. -/
def reapedDelivery (first second : String) : List Action :=
  [.enqueue 0 ⟨"email", "null", 0, 5, 0, none, 0⟩, .claim 1 ⟨first, 60, 1, 300, ["email"]⟩ 0,
    .call (.releaseExpired 61), .claim 2 ⟨second, 60, 1, 300, ["email"]⟩ 62, .handled 1 .returned]

/-- What the first `run_once` of `reapedDelivery` has in hand when it settles. -/
def reaped (first : String) : Delivery where
  worker := ⟨first, 60, 1, 300, ["email"]⟩
  job := ⟨1, "email", "\x7b\x7d", .leased, 0, 1, 5, 0, some 60, some first, none, none, 0, 0⟩
  now := 0
  outcome := some .returned

theorem delivery_fencing_reapedDelivery :
    ((runActions wholeSeconds (.start .empty) (reapedDelivery "w1" "w2")).2.setJobs
      (settle (runActions wholeSeconds (.start .empty) (reapedDelivery "w1" "w2")).2.db.jobs .ack 1
        (some "w1") 0).1).db =
      (runActions wholeSeconds (.start .empty) (reapedDelivery "w1" "w2")).2.db := by
  have hstep := @Step.settle wholeSeconds
    (runActions wholeSeconds (.start .empty) (reapedDelivery "w1" "w2")).2 1 (reaped "w1") .returned
    .ack (by decide +kernel) rfl rfl
  exact (delivery_fencing (run_runActions wholeSeconds (.start .empty) (reapedDelivery "w1" "w2"))
    hstep).2.2 (by decide +kernel) (by decide +kernel)

/-- Under one worker id the first delivery settles the second one's lease, although the reaper
ended its own. -/
theorem sharedWorkerId_not_fenced :
    Run (Step wholeSeconds) (.start .empty)
      (runActions wholeSeconds (.start .empty) (reapedDelivery "w1" "w1")).1
      (runActions wholeSeconds (.start .empty) (reapedDelivery "w1" "w1")).2 ∧
    .call ⟨.releaseExpired 61, .touched [1]⟩ ∈
      sinceClaim 1 (runActions wholeSeconds (.start .empty) (reapedDelivery "w1" "w1")).1 ∧
    ∃ result t, Step wholeSeconds
        (runActions wholeSeconds (.start .empty) (reapedDelivery "w1" "w1")).2
        (.settle 1 (reaped "w1") .ack result) t ∧
      t.db.jobs.row? 1 ≠
        (runActions wholeSeconds (.start .empty) (reapedDelivery "w1" "w1")).2.db.jobs.row? 1 := by
  refine ⟨run_runActions _ _ _, by decide +kernel, _, _,
    .settle _ 1 (reaped "w1") .returned .ack (by decide +kernel) rfl rfl, ?_⟩
  decide +kernel

end Relay.System
