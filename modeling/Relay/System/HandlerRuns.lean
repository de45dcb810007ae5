import Relay.System.DeliveryFencing
import Relay.Queue.Keys

/-!
# Finished jobs had a handler run

When only `run_once` claims and settles, the state of a job says what handlers did with it. A done
job was run by a handler that returned, and a dead one by a handler that raised `PermanentError`,
unless its attempts were used up when it left `leased`; both under a claim of the job by a worker
that has a handler for its kind (`finished_jobs_were_run`). A job of a kind without handlers is
never touched.
-/

set_option autoImplicit false
set_option relaxedAutoImplicit false

namespace Relay.System

open Foundations Store Queue Scheduler Workers

/-- The statements that only `run_once` is to issue: `claim`, `ack`, `fail` and `bury`. -/
def ForWorkers : Statement ℚ → Prop
  | .claim .. => True
  | .settle (.extendLease _) .. => False
  | .settle .. => True
  | _ => False

/-- The step is no `claim`, `ack`, `fail` or `bury` outside `run_once`. -/
def Event.LeavesToWorkers : Event → Prop
  | .call entry => ¬ ForWorkers entry.statement
  | _ => True

/-- A handler was run on the job of a row and ended with an outcome: an earlier claim gave the job,
with the payload it was inserted with, to a worker that has a handler for its kind, and the handler
of that call ended so. -/
def HandlerRun (es : List Event) (row : JobRow ℚ) (outcome : Outcome) : Prop :=
  ∃ before i worker now job between after,
    es = before ++ .claim i worker now (some job) :: (between ++ .handled i outcome :: after) ∧
    job.id = row.id ∧ job.kind = row.kind ∧ row.kind ∈ worker.handlers ∧
    ∃ args, ⟨.insert args, .inserted (some row.id)⟩ ∈ before.filterMap Event.queue? ∧
      job.kind = args.kind ∧ job.payload = dumpsOrEmpty args.payload

/-- The job of a row left `leased` with its attempts used up, and the row has not changed since. -/
def SpentWhenLeft (timeText : ℚ → String) (es : List Event) (row : JobRow ℚ) : Prop :=
  ∃ before e after s t old, es = before ++ e :: after ∧
    Run (Step timeText) (.start .empty) before s ∧ Step timeText s e t ∧
    s.db.jobs.row? row.id = some old ∧ old.status = .leased ∧ old.maxAttempts ≤ old.attempts ∧
    t.db.jobs.row? row.id = some row

variable {timeText : ℚ → String} {s t : State} {e : Event} {es : List Event}

theorem SpentWhenLeft.append {row : JobRow ℚ} (h : SpentWhenLeft timeText es row) (e : Event) :
    SpentWhenLeft timeText (es ++ [e]) row := by
  obtain ⟨before, e', after, s, t, old, rfl, hrest⟩ := h
  exact ⟨before, e', after ++ [e], s, t, old, by simp, hrest⟩

theorem HandlerRun.append {row : JobRow ℚ} {outcome : Outcome} (h : HandlerRun es row outcome)
    (e : Event) : HandlerRun (es ++ [e]) row outcome := by
  obtain ⟨before, i, worker, now, job, between, after, rfl, hrest⟩ := h
  exact ⟨before, i, worker, now, job, between, after ++ [e], by simp, hrest⟩

theorem HandlerRun.of_ticket {row row' : JobRow ℚ} {outcome : Outcome}
    (h : HandlerRun es row outcome) (hticket : row'.ticket = row.ticket) :
    HandlerRun es row' outcome := by
  have hid : row'.id = row.id := congrArg Ticket.id hticket
  have hkind : row'.kind = row.kind := congrArg Ticket.kind hticket
  unfold HandlerRun
  rw [hid, hkind]
  exact h

/-! ### The handler of a delivery -/

theorem sinceClaim_append {i : ℕ} (h : fromClaim i es ≠ []) (e : Event) :
    sinceClaim i (es ++ [e]) = sinceClaim i es ++ [e] := by
  rw [sinceClaim, fromClaim_append, if_neg h, List.tail_append_of_ne_nil h, sinceClaim]

theorem fromClaim_ne_nil {db : Database} (hrun : Run (Step timeText) (.start db) es s) {i : ℕ}
    {delivery : Delivery} (htask : s.tasks i = some (.delivery delivery)) :
    fromClaim i es ≠ [] := by
  intro hnil
  have hhead := (delivery_claimed hrun i).2 delivery htask
  rw [hnil] at hhead
  cases hhead

/-- The outcome of a delivery in progress is the one its handler ended with since its claim. -/
theorem handled_of_delivery {db : Database} (hrun : Run (Step timeText) (.start db) es s) {i : ℕ} :
    ∀ delivery outcome, s.tasks i = some (.delivery delivery) → delivery.outcome = some outcome →
      .handled i outcome ∈ sinceClaim i es := by
  refine hrun.history (motive := fun es s ↦ ∀ delivery outcome,
    s.tasks i = some (.delivery delivery) → delivery.outcome = some outcome →
      .handled i outcome ∈ sinceClaim i es) ?_ ?_
  · intro _ _ htask
    cases htask
  · intro es s e t hleft ih hstep delivery outcome htask houtcome
    have htaskStep := hstep.taskStep i
    rw [htask] at htaskStep
    generalize hbefore : s.tasks i = before at htaskStep
    cases htaskStep with
    | claimed worker now job => cases houtcome
    | handled worker job now _ =>
      obtain rfl := Option.some.inj houtcome
      rw [sinceClaim_append (fromClaim_ne_nil hleft hbefore)]
      exact List.mem_append_right _ (List.mem_singleton_self _)
    | other _ _ _ =>
      rw [sinceClaim_append (fromClaim_ne_nil hleft hbefore)]
      exact List.mem_append_left _ (ih delivery outcome hbefore houtcome)

/-- A claim of `run_once` gives a row of the table, of a kind its worker has a handler for. -/
theorem Step.claimed_job {i : ℕ} {worker : Worker} {now : ℚ} {job : JobRow ℚ}
    (h : Step timeText s (.claim i worker now (some job)) t) : job.kind ∈ worker.handlers ∧
      ∃ row, s.db.jobs.row? job.id = some row ∧ row.ticket = job.ticket := by
  have hstep := (h.queue_step.2 _ rfl).rowStep job.id
  generalize s.db.jobs.row? job.id = before at hstep ⊢
  generalize t.db.jobs.row? job.id = after at hstep
  cases hstep with
  | onClaim _ _ _ _ hid hclaim => exact ⟨hclaim.2 _ rfl, _, rfl, rfl⟩
  | untouched _ htouch => exact absurd rfl htouch

/-- A settle statement of `run_once` follows a handler run on the job with the outcome it is for. -/
theorem handlerRun_of_settle (hrun : Run (Step timeText) (.start .empty) es s) {i : ℕ}
    {delivery : Delivery} {outcome : Outcome} (htask : s.tasks i = some (.delivery delivery))
    (houtcome : delivery.outcome = some outcome) {row : JobRow ℚ}
    (hrow : s.db.jobs.row? delivery.job.id = some row) : HandlerRun es row outcome := by
  obtain ⟨before, hcut⟩ := cut_of_fromClaim ((delivery_claimed hrun i).2 delivery htask)
  obtain ⟨between, after, hsince⟩ :=
    List.append_of_mem (handled_of_delivery hrun delivery outcome htask houtcome)
  rw [hsince] at hcut
  rw [hcut] at hrun
  obtain ⟨_, _, hleft, hclaim, hright⟩ := hrun.at_label
  obtain ⟨hkind, old, hold, hticket⟩ := hclaim.claimed_job
  obtain ⟨new, hnew, hkept⟩ := ticket_of_run (run_queue (.cons hclaim hright)) hold
  obtain rfl := Option.some.inj (hrow.symm.trans hnew)
  have hsame : row.ticket = delivery.job.ticket := hkept.trans hticket
  obtain ⟨first, args, last, hhistory, hargs⟩ :=
    inserted_of_run (run_queue hleft) old (Jobs.mem_of_row? hold)
  have hid : delivery.job.id = row.id := (Jobs.id_of_row? hrow).symm
  have hjob : delivery.job.ticket = (args.row old.id).ticket := hticket.symm.trans hargs
  have hjobKind : delivery.job.kind = row.kind := (congrArg Ticket.kind hsame).symm
  refine ⟨before, i, delivery.worker, delivery.now, delivery.job, between, after, hcut, hid,
    hjobKind, hjobKind ▸ hkind, args, ?_, congrArg Ticket.kind hjob, congrArg Ticket.payload hjob⟩
  rw [hhistory, ← hid, ← Jobs.id_of_row? hold]
  exact List.mem_append_right _ (List.mem_cons_self ..)

/-! ### Terminal states -/

theorem outcome_of_ack {worker : Worker} {job : JobRow ℚ} {outcome : Outcome}
    (h : settleKind worker job outcome = .ok .ack) : outcome = .returned := by
  rcases settleKind_ok h with ⟨houtcome, -⟩ | ⟨_, -, hkind⟩ | ⟨_, _, -, -, hkind⟩
  · exact houtcome
  · cases hkind
  · cases hkind

theorem outcome_of_bury {worker : Worker} {job : JobRow ℚ} {outcome : Outcome} {error : String}
    (h : settleKind worker job outcome = .ok (.bury error)) :
    outcome = .permanentError (.ok error) := by
  rcases settleKind_ok h with ⟨-, hkind⟩ | ⟨_, houtcome, hkind⟩ | ⟨_, _, -, -, hkind⟩
  · cases hkind
  · cases hkind
    exact houtcome
  · cases hkind

/-- A claim left to the workers is the claim of a `run_once`. -/
theorem Event.LeavesToWorkers.claim (h : e.LeavesToWorkers) {workerId : Option String}
    {kinds : Option (List String)} {leaseS now : ℚ} {reply : Reply ℚ}
    (hentry : e.queue? = some ⟨.claim workerId kinds leaseS now, reply⟩) :
    ∃ i worker now job, e = .claim i worker now job ∧ kinds = some worker.handlers := by
  cases e with
  | call entry =>
    obtain rfl := Option.some.inj hentry
    exact absurd trivial h
  | claim i worker now job =>
    obtain ⟨hstatement, -⟩ := Queue.Event.mk.inj (Option.some.inj hentry)
    cases hstatement
    exact ⟨i, worker, now, job, rfl, rfl⟩
  | _ => cases hentry

/-- A settle statement left to the workers is that of a `run_once`, for an outcome of its
handler. -/
theorem Step.settle_of_queue (h : Step timeText s e t) (hworkers : e.LeavesToWorkers)
    {kind : SettleKind ℚ} {j : ℕ} {workerId : Option String} {now : ℚ} {reply : Reply ℚ}
    (hkind : ∀ leaseS, kind ≠ .extendLease leaseS)
    (hentry : e.queue? = some ⟨.settle kind j workerId now, reply⟩) :
    ∃ i delivery outcome, s.tasks i = some (.delivery delivery) ∧
      delivery.outcome = some outcome ∧ delivery.job.id = j ∧
      settleKind delivery.worker delivery.job outcome = .ok kind := by
  cases h with
  | call statement hsingle =>
    obtain ⟨rfl, -⟩ := Queue.Event.mk.inj (Option.some.inj hentry)
    cases kind with
    | extendLease leaseS => exact absurd rfl (hkind leaseS)
    | _ => exact absurd trivial hworkers
  | settle i delivery outcome kind htask houtcome hsettle =>
    obtain ⟨hstatement, -⟩ := Queue.Event.mk.inj (Option.some.inj hentry)
    cases hstatement
    exact ⟨i, delivery, outcome, htask, houtcome, rfl, hsettle⟩
  | _ => cases hentry

/-- Why a job is done or dead. -/
structure Justified (timeText : ℚ → String) (es : List Event) (row : JobRow ℚ) : Prop where
  done : row.status = .done → HandlerRun es row .returned
  dead : row.status = .dead →
    (∃ error, HandlerRun es row (.permanentError (.ok error))) ∨ SpentWhenLeft timeText es row

/-- Every step keeps the rows justified. -/
theorem Step.justified (hrun : Run (Step timeText) (.start .empty) es s)
    (h : Step timeText s e t) (hworkers : e.LeavesToWorkers)
    (hbefore : ∀ row ∈ s.db.jobs.rows, Justified timeText es row) {row : JobRow ℚ}
    (hrow : row ∈ t.db.jobs.rows) : Justified timeText (es ++ [e]) row := by
  have hkept : s.db.jobs.row? row.id = some row → Justified timeText (es ++ [e]) row := by
    intro hsame
    obtain ⟨hdone, hdead⟩ := hbefore row (Jobs.mem_of_row? hsame)
    refine ⟨fun hstatus ↦ (hdone hstatus).append e, fun hstatus ↦ ?_⟩
    rcases hdead hstatus with hhandler | hspent
    · exact .inl (hhandler.imp fun error hraised ↦ hraised.append e)
    · exact .inr (hspent.append e)
  have hlookup := Jobs.row?_of_mem hrow
  cases hentry : e.queue? with
  | none =>
    rw [h.queue_step.1 hentry] at hlookup
    exact hkept hlookup
  | some entry =>
    have hstep := (h.queue_step.2 entry hentry).rowStep row.id
    rw [hlookup] at hstep
    generalize hold : s.db.jobs.row? row.id = before at hstep hkept
    generalize hnew : some row = after at hstep
    -- where the attempts are used up, this step is the one that leaves `leased`
    have hspent : ∀ old, before = some old → old.status = .leased → Exhausted old →
        SpentWhenLeft timeText (es ++ [e]) row := by
      rintro old rfl hleased hspent
      exact ⟨es, e, [], s, t, old, rfl, hrun, h, hold, hleased, hspent, hlookup⟩
    cases hstep with
    | onInsert args =>
      have hqueued : row.status = .queued := congrArg JobRow.status (Option.some.inj hnew)
      exact ⟨by simp [hqueued], by simp [hqueued]⟩
    | onClaim workerId kinds leaseS now _ _ =>
      obtain rfl := Option.some.inj hnew
      exact ⟨by simp [claimed], by simp [claimed]⟩
    | onSettle kind workerId now hguard =>
      rename_i old
      obtain rfl := Option.some.inj hnew
      cases kind with
      | ack =>
        refine ⟨fun _ ↦ ?_, by simp [SettleKind.set]⟩
        obtain ⟨i, delivery, outcome, htask, houtcome, hid, hkind⟩ :=
          h.settle_of_queue hworkers (by simp) hentry
        obtain rfl := outcome_of_ack hkind
        have hhandler : HandlerRun es old .returned :=
          handlerRun_of_settle hrun htask houtcome (hid ▸ hold)
        exact (hhandler.append e).of_ticket rfl
      | bury error =>
        refine ⟨by simp [SettleKind.set], fun _ ↦ .inl ⟨error, ?_⟩⟩
        obtain ⟨i, delivery, outcome, htask, houtcome, hid, hkind⟩ :=
          h.settle_of_queue hworkers (by simp) hentry
        obtain rfl := outcome_of_bury hkind
        have hhandler : HandlerRun es old (.permanentError (.ok error)) :=
          handlerRun_of_settle hrun htask houtcome (hid ▸ hold)
        exact (hhandler.append e).of_ticket rfl
      | fail error retryIn =>
        by_cases hused : Exhausted old
        · exact ⟨by simp [SettleKind.set, hused], fun _ ↦ .inr (hspent old rfl hguard.2.1 hused)⟩
        · exact ⟨by simp [SettleKind.set, hused], by simp [SettleKind.set, hused]⟩
      | extendLease leaseS =>
        have hleased : ((SettleKind.extendLease leaseS).set now old).status = .leased := hguard.2.1
        exact ⟨by simp [hleased], by simp [hleased]⟩
    | onRelease now ids _ hexpired =>
      rename_i old _
      obtain rfl := Option.some.inj hnew
      by_cases hused : Exhausted old
      · exact ⟨by simp [released, hused], fun _ ↦ .inr (hspent old rfl hexpired.1 hused)⟩
      · exact ⟨by simp [released, hused], by simp [released, hused]⟩
    | onRequeue jobId now ids _ _ =>
      obtain rfl := Option.some.inj hnew
      exact ⟨by simp [requeued], by simp [requeued]⟩
    | untouched _ _ => exact hkept hnew.symm

/-- A job of a kind that no claiming worker has a handler for is never touched. -/
theorem untouched_of_no_handler (hrun : Run (Step timeText) (.start .empty) es s) :
    (∀ e ∈ es, e.LeavesToWorkers) → ∀ row ∈ s.db.jobs.rows,
      (∀ i worker now job, .claim i worker now job ∈ es → row.kind ∉ worker.handlers) →
        row.status = .queued ∧ row.attempts = 0 := by
  refine hrun.history (motive := fun es s ↦ (∀ e ∈ es, e.LeavesToWorkers) →
    ∀ row ∈ s.db.jobs.rows,
      (∀ i worker now job, .claim i worker now job ∈ es → row.kind ∉ worker.handlers) →
        row.status = .queued ∧ row.attempts = 0) ?_ ?_
  · intro _ row hrow
    cases hrow
  · intro es s e t _ ih h hworkers row hrow hnone
    have hbefore : ∀ old, s.db.jobs.row? row.id = some old → old.kind = row.kind →
        old.status = .queued ∧ old.attempts = 0 := by
      intro old hold hkind
      refine ih (fun f hf ↦ hworkers f (List.mem_append_left _ hf)) old (Jobs.mem_of_row? hold) ?_
      intro i worker now job hmem
      exact hkind ▸ hnone i worker now job (List.mem_append_left _ hmem)
    have hlast := hworkers e (List.mem_append_right _ (List.mem_singleton_self e))
    have hlookup := Jobs.row?_of_mem hrow
    cases hentry : e.queue? with
    | none =>
      rw [h.queue_step.1 hentry] at hlookup
      exact hbefore row hlookup rfl
    | some entry =>
      have hqueue := h.queue_step.2 entry hentry
      rcases hqueue.row_cases hrow with ⟨old, hold, hticket⟩ | ⟨args, -, hnew⟩
      · have hkind : old.kind = row.kind := (congrArg Ticket.kind hticket).symm
        have hfirst := hbefore old hold hkind
        have hstep := hqueue.rowStep row.id
        rw [hold, hlookup] at hstep
        rcases hstep.queued hfirst.1 with ⟨hsame, -⟩ | ⟨_, _, _, _, rfl, hclaim, -⟩
        · exact Option.some.inj hsame ▸ hfirst
        · obtain ⟨i, worker, time, job, rfl, rfl⟩ := hlast.claim hentry
          refine absurd (hkind ▸ hclaim.2 _ rfl) (hnone i worker time job ?_)
          exact List.mem_append_right _ (List.mem_singleton_self _)
      · exact ⟨congrArg JobRow.status hnew, congrArg JobRow.attempts hnew⟩

theorem justified_of_run (hrun : Run (Step timeText) (.start .empty) es s) :
    (∀ e ∈ es, e.LeavesToWorkers) → ∀ row ∈ s.db.jobs.rows, Justified timeText es row := by
  refine hrun.history (motive := fun es s ↦ (∀ e ∈ es, e.LeavesToWorkers) →
    ∀ row ∈ s.db.jobs.rows, Justified timeText es row) ?_ ?_
  · intro _ row hrow
    cases hrow
  · intro es s e t hleft ih h hworkers row hrow
    refine h.justified hleft (hworkers e (List.mem_append_right _ (List.mem_singleton_self e))) ?_
      hrow
    exact ih fun f hf ↦ hworkers f (List.mem_append_left _ hf)

/-- Terminal states are justified by handler runs. When `claim`, `ack`, `fail` and `bury` are left
to `run_once`, a job is done only if a handler registered for its kind was run on it, with the
payload it was inserted with, and returned; it is dead only if a handler run on it raised
`PermanentError`, or its attempts were used up when it left `leased`; and a job whose kind no
worker has a handler for is queued and was never delivered. -/
theorem finished_jobs_were_run (hrun : Run (Step timeText) (.start .empty) es s)
    (hworkers : ∀ e ∈ es, e.LeavesToWorkers) {row : JobRow ℚ} (hrow : row ∈ s.db.jobs.rows) :
    (row.status = .done → HandlerRun es row .returned) ∧
    (row.status = .dead →
      (∃ error, HandlerRun es row (.permanentError (.ok error))) ∨
        SpentWhenLeft timeText es row) ∧
    ((∀ i worker now job, .claim i worker now job ∈ es → row.kind ∉ worker.handlers) →
      row.status = .queued ∧ row.attempts = 0) := by
  obtain ⟨hdone, hdead⟩ := justified_of_run hrun hworkers row hrow
  exact ⟨hdone, hdead, untouched_of_no_handler hrun hworkers row hrow⟩

instance (statement : Statement ℚ) : Decidable (ForWorkers statement) :=
  match statement with
  | .claim .. => .isTrue trivial
  | .settle (.extendLease _) .. => .isFalse id
  | .settle .ack .. | .settle (.fail ..) .. | .settle (.bury _) .. => .isTrue trivial
  | .insert _ | .selectKey _ | .releaseExpired _ | .requeueDead .. => .isFalse id

instance : DecidablePred Event.LeavesToWorkers
  | .call entry => inferInstanceAs (Decidable (¬ ForWorkers entry.statement))
  | .enqueue .. | .lookup .. | .add .. | .remove .. | .setEnabled .. | .tickSelect ..
  | .tickInsert .. | .tickLookup .. | .tickUpdate .. | .claim .. | .handled .. | .settle ..
  | .raised .. => .isTrue trivial

/-- A handler sends a heartbeat and returns; a job of another kind waits. -/
def handledJob : List Action :=
  [.enqueue 0 ⟨"email", "null", 0, 5, 0, none, 0⟩, .enqueue 1 ⟨"sms", "null", 0, 5, 0, none, 0⟩,
    .claim 2 ⟨"w1", 60, 1, 300, ["email"]⟩ 0, .call (.settle (.extendLease 60) 1 (some "w1") 30),
    .handled 2 .returned, .resume 2, .call (.releaseExpired 100)]

theorem finished_jobs_were_run_handledJob :
    HandlerRun (runActions wholeSeconds (.start .empty) handledJob).1
      ⟨1, "email", "\x7b\x7d", .done, 0, 1, 5, 0, none, some "w1", none, none, 0, 0⟩ .returned := by
  have hworkers : ∀ e ∈ (runActions wholeSeconds (.start .empty) handledJob).1,
      e.LeavesToWorkers := by
    decide +kernel
  exact (finished_jobs_were_run (run_runActions wholeSeconds (.start .empty) handledJob) hworkers
    (by decide +kernel)).1 rfl

end Relay.System
