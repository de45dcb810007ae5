import Relay.Queue.ExclusiveLease
import Relay.Queue.LastClaim
import Relay.Queue.Drain
import Relay.Queue.RowInvariants
import Relay.Foundations.InfiniteRun

/-!
# Jobs come to an end

A job has a budget of attempts, so without new work there is only so much a queue can do.
`workLeft` counts the claims and the ends of deliveries that a table still allows: no step that
brings no work raises it, and a step lowers it by the number of jobs whose delivery it starts or
ends (`Step.workLeft_add_card_le`). So a run without new work has at most so many of them
(`workLeft_add_sum_le`). The same holds of a part of the table, whatever happens to the other jobs,
as long as nothing puts off the end of its own (`Step.workLeft_part_le`).

In an infinite run such a part comes to rest. `TimedStep` is a step of a table beside a clock, which
claims and the reaper read. When the clock passes every time, the reaper runs again and again and
jobs of some kinds are asked for again and again, a part at rest has no leased job, as the reaper
would take it, and, if claims take its jobs before the others, no queued job of these kinds, as a
claim would take it or another one of the part: all of them are done or dead (`jobs_come_to_end`).
-/

set_option autoImplicit false
set_option relaxedAutoImplicit false

namespace Relay.Queue

open Foundations Store

variable {τ : Type*} {j : ℕ}

/-! ### The work left -/

/-- The claims of a job and the ends of its deliveries that its budget still allows. -/
def JobRow.workLeft (row : JobRow τ) : ℕ :=
  match row.status with
  | .queued => 2 * max 1 (row.maxAttempts - row.attempts).toNat
  | .leased => 2 * (row.maxAttempts - row.attempts).toNat + 1
  | .done => 0
  | .dead => 0

/-- The claims and the ends of deliveries that a table still allows. -/
def workLeft (jobs : Jobs τ) : ℕ := (jobs.rows.map JobRow.workLeft).sum

/-- The jobs that the step inserts or requeues from `dead`. -/
def Event.brings : Event τ → List ℕ
  | ⟨.insert _, .inserted id⟩ => id.toList
  | ⟨.requeueDead .., .touched ids⟩ => ids
  | _ => []

/-- The job whose delivery the step starts. -/
def Event.starts : Event τ → Finset ℕ
  | ⟨.claim .., .claimed job⟩ => (job.map JobRow.id).toFinset
  | _ => ∅

/-- The jobs whose delivery the step ends. -/
def Event.stops : Event τ → Finset ℕ
  | ⟨.settle (.extendLease _) .., _⟩ => ∅
  | ⟨.settle _ jobId _ _, .settled (.ok ())⟩ => {jobId}
  | ⟨.releaseExpired _, .touched ids⟩ => ids.toFinset
  | _ => ∅

/-- The jobs whose delivery the step starts or ends. -/
def Event.delivers (e : Event τ) : Finset ℕ := e.starts ∪ e.stops

/-- The jobs whose end the step puts off: it brings them, or extends their lease. -/
def Event.renews : Event τ → List ℕ
  | ⟨.settle (.extendLease _) jobId _ _, .settled (.ok ())⟩ => [jobId]
  | e => e.brings

theorem Event.touches_of_mem_starts {e : Event τ} (h : j ∈ e.starts) : e.Touches j := by
  unfold Event.starts at h
  split at h
  · simpa [Event.Touches] using h
  · simp at h

theorem Event.touches_of_mem_stops {e : Event τ} (h : j ∈ e.stops) : e.Touches j := by
  unfold Event.stops at h
  split at h
  · simp at h
  · rw [Finset.mem_singleton] at h
    exact ⟨h.symm, rfl⟩
  · exact List.mem_toFinset.mp h
  · simp at h

theorem Event.touches_of_mem_delivers {e : Event τ} (h : j ∈ e.delivers) : e.Touches j :=
  (Finset.mem_union.mp h).elim touches_of_mem_starts touches_of_mem_stops

section Machine

variable [Add τ] [LinearOrder τ] {e : Event τ} {es : List (Event τ)} {jobs jobs' : Jobs τ}

/-- No step but one that brings work raises the work left of a job, and a claim or the end of a
delivery lowers it. -/
theorem RowStep.workLeft_le {row? row?' : Option (JobRow τ)} (h : RowStep j e row? row?')
    (hquiet : j ∉ e.brings) :
    row?'.elim 0 JobRow.workLeft + (if j ∈ e.delivers then 1 else 0) ≤
      row?.elim 0 JobRow.workLeft := by
  have hone : (if j ∈ e.delivers then 1 else 0) ≤ 1 := by
    split_ifs <;> omega
  cases h with
  | onInsert args => exact absurd (List.mem_singleton_self j) hquiet
  | @onClaim row workerId kinds leaseS now hid hclaim =>
    have hqueued := hclaim.1.1
    refine (Nat.add_le_add_left hone _).trans ?_
    simp only [Option.elim, JobRow.workLeft, claimed, hqueued]
    omega
  | @onSettle row kind workerId now hguard =>
    have hleased := hguard.2.1
    cases kind with
    | extendLease leaseS =>
      simp [JobRow.workLeft, SettleKind.set, hleased, Event.delivers, Event.starts, Event.stops]
    | fail error retryIn =>
      by_cases hspent : Exhausted row
      · simp [JobRow.workLeft, SettleKind.set, hleased, hspent, Event.delivers, Event.starts,
          Event.stops]
      · have hleft : (row.attempts : ℤ) < row.maxAttempts := not_le.mp hspent
        refine (Nat.add_le_add_left hone _).trans ?_
        simp only [Option.elim, JobRow.workLeft, SettleKind.set, hleased, if_neg hspent]
        omega
    | _ =>
      simp [JobRow.workLeft, SettleKind.set, hleased, Event.delivers, Event.starts, Event.stops]
  | @onRelease row now ids hmem hexpired =>
    have hleased := hexpired.1
    by_cases hspent : Exhausted row
    · simp [JobRow.workLeft, released, hleased, hspent, Event.delivers, Event.starts, Event.stops,
        hmem]
    · have hleft : (row.attempts : ℤ) < row.maxAttempts := not_le.mp hspent
      refine (Nat.add_le_add_left hone _).trans ?_
      simp only [Option.elim, JobRow.workLeft, released, hleased, if_neg hspent]
      omega
  | onRequeue jobId now ids hmem hdead => exact absurd hmem hquiet
  | untouched _ htouch => rw [if_neg (mt Event.touches_of_mem_delivers htouch), add_zero]

/-- A step that brings no work lowers the work left by at least the number of jobs whose delivery it
starts or ends. -/
theorem Step.workLeft_add_card_le (h : Step jobs e jobs') (hquiet : e.brings = []) :
    workLeft jobs' + e.delivers.card ≤ workLeft jobs :=
  Table.sum_add_card_le jobs.distinct jobs'.distinct fun j ↦
    (h.rowStep j).workLeft_le (by simp [hquiet])

/-- Without new work a run starts and ends no more deliveries than the table it starts from allows:
each job is claimed at most as often as its attempts last, and each delivery ends at most once. -/
theorem workLeft_add_sum_le (h : Run Step jobs es jobs') (hquiet : ∀ e ∈ es, e.brings = []) :
    workLeft jobs' + (es.map fun e ↦ e.delivers.card).sum ≤ workLeft jobs := by
  induction h with
  | nil => exact le_rfl
  | @cons first between last e es head _ ih =>
    obtain ⟨hfirst, hrest⟩ := List.forall_mem_cons.mp hquiet
    have hstep := head.workLeft_add_card_le hfirst
    have hrun := ih hrest
    rw [List.map_cons, List.sum_cons]
    omega

end Machine

/-- A job with two attempts. -/
def twoAttempts : Jobs ℕ := (exec Jobs.empty [.insert ⟨"email", "null", 0, 2, 0, none, 0⟩]).2

/-- A worker gives it back, and another one stops. -/
def bothFail : List (Statement ℕ) :=
  [.claim (some "w1") none 60 0, .settle (.fail "boom" 0) 1 (some "w1") 1,
    .claim (some "w2") none 60 2, .releaseExpired 63]

/-- No delivery is left then. -/
theorem workLeft_add_sum_le_bothFail : workLeft (exec twoAttempts bothFail).2 +
    ((exec twoAttempts bothFail).1.map fun e ↦ e.delivers.card).sum ≤ 4 ∧
      ((exec twoAttempts bothFail).1.map fun e ↦ e.delivers.card).sum = 4 :=
  ⟨workLeft_add_sum_le (run_exec twoAttempts bothFail) (by decide), by decide⟩

/-! ### The work left in a part of the table -/

section Part

variable [Add τ] [LinearOrder τ] {e : Event τ} {jobs jobs' : Jobs τ}
  {front : Ticket τ → Prop} [DecidablePred front]

/-- The step puts off the end of no job in a part of the table. -/
def Quiet (front : Ticket τ → Prop) (e : Event τ) (jobs' : Jobs τ) : Prop :=
  ∀ row ∈ jobs'.rows, front row.ticket → row.id ∉ e.renews

omit [Add τ] [LinearOrder τ] in
theorem Event.mem_renews_of_mem_brings (h : j ∈ e.brings) : j ∈ e.renews := by
  unfold Event.renews
  split
  · simp [Event.brings] at h
  · exact h

/-- A row that a step does not bring was there before it. -/
theorem RowStep.row?_of_not_brings {row? : Option (JobRow τ)} {row' : JobRow τ}
    (h : RowStep j e row? (some row')) (hbrings : j ∉ e.brings) :
    ∃ row, row? = some row ∧ row.ticket = row'.ticket := by
  cases hrow : row? with
  | none =>
    rw [hrow] at h
    cases h with
    | onInsert args => exact absurd (List.mem_singleton_self j) hbrings
  | some row =>
    rw [hrow] at h
    obtain ⟨_, hsame, hticket⟩ := h.ticket
    exact ⟨row, rfl, Option.some.inj hsame ▸ hticket.symm⟩

/-- A step that neither puts off the end of a job nor starts or ends its delivery leaves it as it
is. -/
theorem RowStep.eq_of_idle {row? row?' : Option (JobRow τ)} (h : RowStep j e row? row?')
    (hrenews : j ∉ e.renews) (hdelivers : j ∉ e.delivers) : row?' = row? := by
  cases h with
  | onInsert args => exact absurd (List.mem_singleton_self j) hrenews
  | onClaim workerId kinds leaseS now hid =>
    exact absurd (by simp [Event.delivers, Event.starts, claimed, hid]) hdelivers
  | onSettle kind workerId now hguard =>
    cases kind with
    | extendLease leaseS => exact absurd (List.mem_singleton_self j) hrenews
    | _ => exact absurd (Finset.mem_union_right _ (Finset.mem_singleton_self j)) hdelivers
  | onRelease now ids hmem =>
    exact absurd (Finset.mem_union_right _ (List.mem_toFinset.mpr hmem)) hdelivers
  | onRequeue jobId now ids hmem => exact absurd hmem hrenews
  | untouched _ _ => rfl

/-- A job whose delivery a step starts or ends is in the table. -/
theorem RowStep.row?_of_delivers {row? row?' : Option (JobRow τ)} (h : RowStep j e row? row?')
    (hdelivers : j ∈ e.delivers) : ∃ row, row? = some row := by
  cases h with
  | onInsert args => simp [Event.delivers, Event.starts, Event.stops] at hdelivers
  | untouched _ htouch => exact absurd (Event.touches_of_mem_delivers hdelivers) htouch
  | _ => exact ⟨_, rfl⟩

/-- The jobs of the part whose delivery the step starts or ends. -/
def deliversIn (front : Ticket τ → Prop) [DecidablePred front] (e : Event τ)
    (jobs' : Jobs τ) : Finset ℕ :=
  e.delivers.filter fun j ↦ ((jobs'.part front).row? j).isSome

/-- A quiet step lowers the work left in the part by at least the number of its jobs whose delivery
it starts or ends. -/
theorem Step.workLeft_part_le (h : Step jobs e jobs') (hquiet : Quiet front e jobs') :
    workLeft (jobs'.part front) + (deliversIn front e jobs').card ≤
      workLeft (jobs.part front) := by
  refine Table.sum_add_card_le (jobs.part front).distinct (jobs'.part front).distinct fun j ↦ ?_
  change ((jobs'.part front).row? j).elim 0 JobRow.workLeft + _ ≤
    ((jobs.part front).row? j).elim 0 JobRow.workLeft
  have hstep := h.rowStep j
  cases hnew : (jobs'.part front).row? j with
  | none => simp [deliversIn, hnew]
  | some row' =>
    rw [Jobs.row?_part, Option.filter_eq_some_iff, decide_eq_true_eq] at hnew
    obtain ⟨hrow', hfront⟩ := hnew
    have hbrings : j ∉ e.brings := fun hbrings ↦
      hquiet row' (Jobs.mem_of_row? hrow') hfront
        (Jobs.id_of_row? hrow' ▸ Event.mem_renews_of_mem_brings hbrings)
    have hle := hstep.workLeft_le hbrings
    rw [hrow'] at hstep hle
    obtain ⟨row, hrow, hticket⟩ := hstep.row?_of_not_brings hbrings
    have hold : (jobs.part front).row? j = some row := by
      rw [Jobs.row?_part, hrow]
      exact Option.filter_some_pos (by simpa [hticket] using hfront)
    rw [hold, ← hrow]
    refine (Nat.add_le_add_left ?_ _).trans hle
    have hsub : j ∈ deliversIn front e jobs' → j ∈ e.delivers := fun h ↦ (Finset.mem_filter.mp h).1
    split_ifs with hin hout
    · exact le_rfl
    · exact absurd (hsub hin) hout
    · exact Nat.zero_le _
    · exact le_rfl

/-- A quiet step leaves the part as it is, or lowers its work left. -/
theorem Step.part_eq_or_workLeft_lt (h : Step jobs e jobs') (hquiet : Quiet front e jobs') :
    (jobs'.part front).rows = (jobs.part front).rows ∨
      workLeft (jobs'.part front) < workLeft (jobs.part front) := by
  have hle := h.workLeft_part_le hquiet
  by_cases hidle : deliversIn front e jobs' = ∅
  · refine .inl (Jobs.rows_eq_of_row? fun j ↦ ?_)
    have hstep := h.rowStep j
    cases hnew : (jobs'.part front).row? j with
    | some row' =>
      have hnew' := hnew
      rw [Jobs.row?_part, Option.filter_eq_some_iff, decide_eq_true_eq] at hnew'
      obtain ⟨hrow', hfront⟩ := hnew'
      have hrenews : j ∉ e.renews :=
        Jobs.id_of_row? hrow' ▸ hquiet row' (Jobs.mem_of_row? hrow') hfront
      have hdelivers : j ∉ e.delivers := fun hmem ↦ by
        have hin : j ∈ deliversIn front e jobs' := Finset.mem_filter.mpr ⟨hmem, by simp [hnew]⟩
        simp [hidle] at hin
      rw [← hnew, Jobs.row?_part, Jobs.row?_part, hstep.eq_of_idle hrenews hdelivers]
    | none =>
      -- a row that was in the part would still be in it
      by_contra hne
      obtain ⟨row, hold⟩ := Option.ne_none_iff_exists'.mp (Ne.symm hne)
      rw [Jobs.row?_part, Option.filter_eq_some_iff, decide_eq_true_eq] at hold
      rw [hold.1] at hstep
      obtain ⟨row', hrow', hticket⟩ := hstep.ticket
      rw [Jobs.row?_part, hrow', Option.filter_some_pos (by simpa [hticket] using hold.2)] at hnew
      cases hnew
  · have hpos := Finset.card_pos.mpr (Finset.nonempty_iff_ne_empty.mpr hidle)
    exact .inr (by omega)

/-- So a quiet step that leaves the part as it is delivers none of its jobs. -/
theorem Step.not_delivers_of_part_eq (h : Step jobs e jobs') (hquiet : Quiet front e jobs')
    (hsame : (jobs'.part front).rows = (jobs.part front).rows) {row : JobRow τ}
    (hrow : row ∈ (jobs'.part front).rows) : row.id ∉ e.delivers := by
  intro hmem
  have hle := h.workLeft_part_le hquiet
  rw [workLeft, workLeft, hsame] at hle
  have hin : row.id ∈ deliversIn front e jobs' :=
    Finset.mem_filter.mpr ⟨hmem, by simp [Jobs.row?_of_mem hrow]⟩
  have hpos := Finset.card_pos.mpr ⟨_, hin⟩
  omega

/-- The reaper ends the delivery of an expired row. -/
theorem Step.delivers_releaseExpired {now : τ} {reply : Reply τ} {row : JobRow τ}
    (h : Step jobs ⟨.releaseExpired now, reply⟩ jobs') (hrow : row ∈ jobs.rows)
    (hexpired : Expired now row) : row.id ∈ (⟨.releaseExpired now, reply⟩ : Event τ).delivers := by
  obtain ⟨-, rfl⟩ := Prod.mk.inj h
  refine Finset.mem_union_right _ (List.mem_toFinset.mpr ?_)
  exact (mem_touchedIds jobs (Expired now) (ticket_released now) row.id).mpr
    ⟨row, Jobs.row?_of_mem hrow, hexpired⟩

/-- A claim that finds a claimable row starts the delivery of it or of one before it. -/
theorem Step.delivers_claim {workerId : Option String} {kinds : Option (List String)}
    {leaseS now : τ} {reply : Reply τ} {row : JobRow τ}
    (h : Step jobs ⟨.claim workerId kinds leaseS now, reply⟩ jobs') (hrow : row ∈ jobs.rows)
    (hclaimable : Claimable kinds now row) :
    ∃ first ∈ jobs.rows, (first = row ∨ ClaimBefore first row) ∧
      first.id ∈ (⟨.claim workerId kinds leaseS now, reply⟩ : Event τ).delivers := by
  obtain ⟨-, rfl⟩ := Prod.mk.inj h
  obtain ⟨first, hfirst, -, hbefore, hclaim⟩ :=
    claim_eq_first workerId leaseS ⟨row, hrow, hclaimable⟩
  refine ⟨first, hfirst, (hbefore row hrow hclaimable).imp_left Eq.symm, ?_⟩
  rw [hclaim]
  simp [Event.delivers, Event.starts, claimed]

end Part

/-! ### Infinite runs -/

section Machine

variable [Add τ] [LinearOrder τ] {e : Event τ} {es : List (Event τ)}

/-- A step of a table beside a clock, or of the clock alone. Claims and the reaper read the
clock. -/
def TimedStep (before : Jobs τ × τ) (e : Option (Event τ)) (after : Jobs τ × τ) : Prop :=
  before.2 ≤ after.2 ∧ (e = none → after.1 = before.1) ∧
    ∀ entry ∈ e, Step before.1 entry after.1 ∧ ∀ now ∈ entry.leaseTime?, now = after.2

/-- Jobs of some kinds are served in a part of the table that claims take first: from some point on
nothing puts off the end of its jobs, the clock passes every time, and again and again the reaper
runs and a claim asks for jobs of these kinds. -/
structure Served (front : Ticket τ → Prop) (served : List String)
    (x : InfiniteRun (TimedStep (τ := τ))) : Prop where
  closed : ∀ a b : JobRow τ, ClaimBefore a b → front b.ticket → front a.ticket
  quiet : ∃ n, ∀ k, n ≤ k → ∀ entry ∈ x.label k, Quiet front entry (x.state (k + 1)).1
  clock : ∀ time, ∃ n, time < (x.state n).2
  reaped : ∀ n, ∃ k, n ≤ k ∧ ∃ now reply, x.label k = some ⟨.releaseExpired now, reply⟩
  asked : ∀ n, ∃ k, n ≤ k ∧ ∃ workerId kinds leaseS now reply,
    x.label k = some ⟨.claim workerId kinds leaseS now, reply⟩ ∧ ∀ ks ∈ kinds, served ⊆ ks

/-- A part of the table at rest: no step from `n` on changes it or puts off the end of its jobs. -/
def AtRest (front : Ticket τ → Prop) [DecidablePred front]
    (x : InfiniteRun (TimedStep (τ := τ))) (n : ℕ) : Prop :=
  ∀ k, n ≤ k → ((x.state k).1.part front).rows = ((x.state n).1.part front).rows ∧
    ∀ entry ∈ x.label k, Quiet front entry (x.state (k + 1)).1

variable {x : InfiniteRun (TimedStep (τ := τ))} {served : List String}
  {front : Ticket τ → Prop} [DecidablePred front]

theorem TimedStep.clock_le {n k : ℕ} (h : n ≤ k) : (x.state n).2 ≤ (x.state k).2 :=
  x.keeps (fun state ↦ (x.state n).2 ≤ state.2)
    (fun k _ hle ↦ hle.trans (x.follows k).1) le_rfl k h

/-- From each state of an infinite run to a later one there is a run of the table. -/
theorem TimedStep.run (x : InfiniteRun (TimedStep (τ := τ))) {n k : ℕ} (h : n ≤ k) :
    ∃ fs, Run Step (x.state n).1 fs (x.state k).1 := by
  have hrun := (x.run n (k - n)).project Prod.fst id (fun _ _ _ hstep hnone ↦ hstep.2.1 hnone)
    fun _ _ _ entry hstep hsome ↦ (hstep.2.2 entry hsome).1
  rw [Nat.add_sub_cancel' h] at hrun
  exact ⟨_, hrun⟩

/-- Once nothing puts off the end of its jobs, a part of the table comes to rest. -/
theorem exists_atRest {n : ℕ} (hquiet : ∀ k, n ≤ k → ∀ entry ∈ x.label k,
    Quiet front entry (x.state (k + 1)).1) : ∃ m, AtRest front x m := by
  obtain ⟨m, hm, hrows⟩ := x.settles (fun state ↦ (state.1.part front).rows)
    (fun rows ↦ (rows.map JobRow.workLeft).sum) (n := n) fun k hk ↦ by
      obtain ⟨-, hsilent, hstep⟩ := x.follows k
      cases hlabel : x.label k with
      | none => exact .inl (by rw [hsilent hlabel])
      | some entry => exact (hstep entry hlabel).1.part_eq_or_workLeft_lt (hquiet k hk entry hlabel)
  exact ⟨m, fun k hk ↦ ⟨hrows k hk, hquiet k (hm.trans hk)⟩⟩

/-- Nothing is delivered from a part at rest. -/
theorem AtRest.not_delivers {n k : ℕ} (h : AtRest front x n) (hk : n ≤ k)
    (hlabel : x.label k = some e) {row : JobRow τ} (hrow : row ∈ ((x.state n).1.part front).rows) :
    row.id ∉ e.delivers := by
  have hnow := (h k hk).1
  have hnext := (h (k + 1) (by omega)).1
  refine ((x.follows k).2.2 e hlabel).1.not_delivers_of_part_eq ((h k hk).2 e hlabel)
    (hnext.trans hnow.symm) ?_
  exact hnext ▸ hrow

/-- A served part at rest has no leased job. -/
theorem Served.not_leased (h : Served front served x)
    (hstart : Run Step Jobs.empty es (x.state 0).1) {n : ℕ} (hrest : AtRest front x n)
    {row : JobRow τ} (hrow : row ∈ ((x.state n).1.part front).rows) : row.status ≠ .leased := by
  intro hleased
  obtain ⟨fs, hrun⟩ := TimedStep.run x (Nat.zero_le n)
  have hmem := (Jobs.mem_rows_part.mp hrow).1
  have hcoherent := coherent_of_run (hstart.append hrun) (Jobs.row?_of_mem hmem)
  obtain ⟨deadline, hdeadline⟩ := Option.isSome_iff_exists.mp (hcoherent.deadline.mpr hleased)
  -- the reaper runs at a time past the deadline
  obtain ⟨m, hpast⟩ := h.clock deadline
  obtain ⟨k, hk, now, reply, hlabel⟩ := h.reaped (max n m)
  obtain ⟨hclock, -, hstep⟩ := x.follows k
  obtain ⟨hperform, htime⟩ := hstep _ hlabel
  have hnow : deadline < now := by
    rw [htime now rfl]
    exact (hpast.trans_le (TimedStep.clock_le ((le_max_right n m).trans hk))).trans_le hclock
  have hmem : row ∈ ((x.state k).1.part front).rows := (hrest k (le_of_max_le_left hk)).1 ▸ hrow
  exact hrest.not_delivers (le_of_max_le_left hk) hlabel hrow
    (hperform.delivers_releaseExpired (Jobs.mem_rows_part.mp hmem).1
      ⟨hleased, deadline, hdeadline, hnow⟩)

/-- A served part at rest has no queued job of these kinds: a claim would take it or one before
it. -/
theorem Served.not_queued (h : Served front served x) {n : ℕ} (hrest : AtRest front x n)
    {row : JobRow τ} (hrow : row ∈ ((x.state n).1.part front).rows) (hkind : row.kind ∈ served) :
    row.status ≠ .queued := by
  intro hqueued
  -- a claim comes when the job is due
  obtain ⟨m, hpast⟩ := h.clock row.notBefore
  obtain ⟨k, hk, workerId, kinds, leaseS, now, reply, hlabel, haccepts⟩ := h.asked (max n m)
  obtain ⟨hclock, -, hstep⟩ := x.follows k
  obtain ⟨hperform, htime⟩ := hstep _ hlabel
  have hdue : row.notBefore ≤ now := by
    rw [htime now rfl]
    exact (hpast.le.trans (TimedStep.clock_le ((le_max_right n m).trans hk))).trans hclock
  have hclaimable : Claimable kinds now row :=
    ⟨⟨hqueued, hdue⟩, fun ks hks ↦ haccepts ks hks hkind⟩
  have hsame := (hrest k (le_of_max_le_left hk)).1
  obtain ⟨hmem, hfront⟩ := Jobs.mem_rows_part.mp (hsame ▸ hrow)
  obtain ⟨first, hfirst, hbefore, hdelivers⟩ := hperform.delivers_claim hmem hclaimable
  have hfirstFront : front first.ticket := by
    rcases hbefore with rfl | hbefore
    · exact hfront
    · exact h.closed first row hbefore hfront
  have hpart : first ∈ ((x.state n).1.part front).rows :=
    hsame ▸ Jobs.mem_rows_part.mpr ⟨hfirst, hfirstFront⟩
  exact hrest.not_delivers (le_of_max_le_left hk) hlabel hpart hdelivers

/-- Served jobs come to an end: from some point on the part of the table does not change, none of
its jobs is leased, and every job of these kinds in it is done or dead. -/
theorem jobs_come_to_end (hserved : Served front served x)
    (hstart : Run Step Jobs.empty es (x.state 0).1) :
    ∃ n, ∀ k, n ≤ k → ((x.state k).1.part front).rows = ((x.state n).1.part front).rows ∧
      ∀ row ∈ ((x.state k).1.part front).rows, row.status ≠ .leased ∧
        (row.kind ∈ served → row.status = .done ∨ row.status = .dead) := by
  obtain ⟨m, hquiet⟩ := hserved.quiet
  obtain ⟨n, hrest⟩ := exists_atRest hquiet
  refine ⟨n, fun k hk ↦ ⟨(hrest k hk).1, fun row hrow ↦ ?_⟩⟩
  rw [(hrest k hk).1] at hrow
  have hleased := hserved.not_leased hstart hrest hrow
  refine ⟨hleased, fun hkind ↦ ?_⟩
  have hqueued := hserved.not_queued hrest hrow hkind
  cases hstatus : row.status with
  | queued => exact absurd hstatus hqueued
  | leased => exact absurd hstatus hleased
  | done => exact .inl rfl
  | dead => exact .inr rfl

end Machine

end Relay.Queue
