import Relay.Queue.Drain
import Relay.Queue.Counts
import Relay.Queue.Completion

/-!
# Bounded overtaking

A queued job can be passed over by a claim that could have taken it only in favour of a job ahead
of it: one of higher priority, or of the same priority and an earlier id. So while the job waits, it
is passed over at most as often as there are jobs queued ahead of it at the start, plus those that
an insert, a retry, an expired lease or a `requeue_dead` puts into the queue ahead of it in the
meantime (`passes_le`). Later jobs of the same priority never count, nor does a job that a `fail` or
an expired lease sends to `dead`.
-/

set_option autoImplicit false
set_option relaxedAutoImplicit false

namespace Relay.Queue

open Foundations Store

variable {τ : Type*}

instance (a b : JobRow τ) : Decidable (ClaimBefore a b) := inferInstanceAs (Decidable (_ ∨ _))

/-- The queued jobs ahead of a row. -/
def queuedAhead (jobs : Jobs τ) (row : JobRow τ) : ℕ :=
  jobs.rows.countP fun other ↦ other.status = .queued ∧ ClaimBefore other row

/-- The job with an id is queued, and ahead of a row. -/
def QueuedAhead (jobs : Jobs τ) (row : JobRow τ) (id : ℕ) : Prop :=
  ∃ other ∈ jobs.row? id, other.status = .queued ∧ ClaimBefore other row

instance (jobs : Jobs τ) (row : JobRow τ) (id : ℕ) : Decidable (QueuedAhead jobs row id) :=
  inferInstanceAs (Decidable (∃ other ∈ jobs.row? id, other.status = .queued ∧ _))

section Machine

variable [Add τ] [LinearOrder τ] {e : Event τ} {es : List (Event τ)} {jobs jobs' : Jobs τ}
  {row : JobRow τ}

/-- The step is a claim that could take a row. -/
def Event.couldTake (row : JobRow τ) : Event τ → Bool
  | ⟨.claim _ kinds _ now, _⟩ => Claimable kinds now row
  | _ => false

/-- How often the statements of a history put a job into the queue ahead of a row. -/
def arrivalsAhead (row : JobRow τ) : Jobs τ → List (Event τ) → ℕ
  | _, [] => 0
  | jobs, e :: es =>
    let after := (perform jobs e.statement).1
    (e.arrivals.countP fun id ↦ QueuedAhead after row id) + arrivalsAhead row after es

/-- A claim that could take a row and does not takes a queued job ahead of it. -/
theorem Step.takes_ahead (h : Step jobs e jobs') (hrow : row ∈ jobs.rows)
    (hclaims : ¬ e.Claims row.id) (hcould : e.couldTake row) :
    ∃ first ∈ jobs.rows, first.status = .queued ∧ ClaimBefore first row ∧
      e.starts = {first.id} := by
  obtain ⟨statement, reply⟩ := e
  cases statement with
  | claim workerId kinds leaseS now =>
    obtain ⟨-, rfl⟩ := Prod.mk.inj h
    have hclaimable : Claimable kinds now row := of_decide_eq_true hcould
    obtain ⟨first, hfirst, hready, hbefore, hclaim⟩ :=
      claim_eq_first workerId leaseS ⟨row, hrow, hclaimable⟩
    rw [hclaim] at hclaims ⊢
    refine ⟨first, hfirst, hready.1.1, ?_, by simp [Event.starts, claimed]⟩
    rcases hbefore row hrow hclaimable with rfl | hbefore
    · exact absurd rfl hclaims
    · exact hbefore
  | _ => simp [Event.couldTake] at hcould

/-- A job that a step starts to deliver is leased after it. -/
theorem RowStep.leased_of_starts {j : ℕ} {row? row?' : Option (JobRow τ)}
    (h : RowStep j e row? row?') (hstarts : j ∈ e.starts) :
    ∃ row, row?' = some row ∧ row.status = .leased := by
  cases h with
  | onClaim workerId kinds leaseS now => exact ⟨_, rfl, rfl⟩
  | untouched _ htouch => exact absurd (Event.touches_of_mem_starts hstarts) htouch
  | _ => simp [Event.starts] at hstarts

/-- 1 for a queued row ahead of another. -/
def queuedBefore (row other : JobRow τ) : ℕ :=
  if other.status = .queued ∧ ClaimBefore other row then 1 else 0

/-- A step puts a job in front of a row only when it arrives, and takes one away when it is
claimed. -/
theorem Step.queuedBefore_le (h : Step jobs e jobs') (row : JobRow τ) {taken : Finset ℕ}
    (htaken : taken ⊆ e.starts)
    (hahead : ∀ other ∈ jobs.rows, other.id ∈ taken →
      other.status = .queued ∧ ClaimBefore other row) (j : ℕ) :
    (jobs'.row? j).elim 0 (queuedBefore row) + (if j ∈ taken then 1 else 0) ≤
      (jobs.row? j).elim 0 (queuedBefore row) +
        if j ∈ (e.arrivals.filter (QueuedAhead jobs' row)).toFinset then 1 else 0 := by
  have hstep := h.rowStep j
  by_cases hj : j ∈ taken
  · obtain ⟨new, hnew, hleased⟩ := hstep.leased_of_starts (htaken hj)
    have hafter : (jobs'.row? j).elim 0 (queuedBefore row) = 0 := by
      simp [hnew, queuedBefore, hleased]
    cases hold : jobs.row? j with
    | none =>
      rw [hold, hnew] at hstep
      rw [hstep.inserted.1] at hleased
      cases hleased
    | some old =>
      have hbefore := hahead old (Jobs.mem_of_row? hold) (Jobs.id_of_row? hold ▸ hj)
      rw [hafter, if_pos hj, Option.elim_some, queuedBefore, if_pos hbefore]
      omega
  · rw [if_neg hj, add_zero]
    cases hnew : jobs'.row? j with
    | none => exact Nat.zero_le _
    | some new =>
      by_cases hfront : new.status = .queued ∧ ClaimBefore new row
      · rw [hnew] at hstep
        rcases hstep.queued_or_arrives hfront.1 with ⟨old, hold, hqueued⟩ | harrives
        · rw [hold] at hstep ⊢
          rcases hstep.queued hqueued with ⟨hsame, -⟩ | ⟨workerId, _, leaseS, now, -, -, hclaimed⟩
          · rw [Option.some.inj hsame]
            exact Nat.le_add_right _ _
          · have hstatus := congrArg JobRow.status (Option.some.inj hclaimed)
            rw [hfront.1] at hstatus
            cases hstatus
        · have hmem : j ∈ (e.arrivals.filter (QueuedAhead jobs' row)).toFinset := by
            rw [List.mem_toFinset, List.mem_filter]
            exact ⟨harrives, by simpa using ⟨new, hnew, hfront⟩⟩
          rw [if_pos hmem, Option.elim_some, queuedBefore, if_pos hfront]
          omega
      · rw [Option.elim_some, queuedBefore, if_neg hfront]
        exact Nat.zero_le _

omit [Add τ] [LinearOrder τ] in
theorem queuedAhead_eq_sum (jobs : Jobs τ) (row : JobRow τ) :
    queuedAhead jobs row = (jobs.rows.map (queuedBefore row)).sum :=
  Table.countP_eq_sum jobs.rows fun other ↦ other.status = .queued ∧ ClaimBefore other row

/-- A claim that could take a row and does not brings it forward by one; only arrivals set it
back. -/
theorem Step.queuedAhead_add_le (h : Step jobs e jobs') (hrow : row ∈ jobs.rows)
    (hclaims : ¬ e.Claims row.id) :
    queuedAhead jobs' row + (if e.couldTake row then 1 else 0) ≤
      queuedAhead jobs row + e.arrivals.countP fun id ↦ QueuedAhead jobs' row id := by
  have harrivals : (e.arrivals.filter (QueuedAhead jobs' row)).toFinset.card ≤
      e.arrivals.countP fun id ↦ QueuedAhead jobs' row id := by
    rw [List.countP_eq_length_filter]
    exact List.toFinset_card_le _
  rw [queuedAhead_eq_sum, queuedAhead_eq_sum]
  by_cases hcould : e.couldTake row
  · obtain ⟨first, hfirst, hqueued, hbefore, hstarts⟩ := h.takes_ahead hrow hclaims hcould
    have hle := Table.sum_add_card_le_add jobs.distinct jobs'.distinct _
      (h.queuedBefore_le row hstarts.ge fun other hother hid ↦ by
        rw [Jobs.eq_of_id hother hfirst (Finset.mem_singleton.mp hid)]
        exact ⟨hqueued, hbefore⟩)
    rw [Finset.card_singleton] at hle
    rw [if_pos hcould]
    exact hle.trans (Nat.add_le_add_left harrivals _)
  · have hle := Table.sum_add_card_le_add jobs.distinct jobs'.distinct _
      (h.queuedBefore_le row (Finset.empty_subset _) fun _ _ hid ↦
        absurd hid (Finset.notMem_empty _))
    rw [Finset.card_empty] at hle
    rw [if_neg hcould]
    exact hle.trans (Nat.add_le_add_left harrivals _)

/-- Bounded overtaking. While a queued job is not claimed, the claims that could take it are no more
than the jobs queued ahead of it at the start and those put into the queue ahead of it since. -/
theorem passes_le (h : Run Step jobs es jobs') (hrow : row ∈ jobs.rows)
    (hqueued : row.status = .queued) (hclaims : ∀ e ∈ es, ¬ e.Claims row.id) :
    es.countP (Event.couldTake row) ≤ queuedAhead jobs row + arrivalsAhead row jobs es := by
  suffices hbound : queuedAhead jobs' row + es.countP (Event.couldTake row) ≤
      queuedAhead jobs row + arrivalsAhead row jobs es from (Nat.le_add_left _ _).trans hbound
  induction h with
  | nil => simp [arrivalsAhead]
  | @cons first between last e es head tail ih =>
    obtain ⟨hfirst, hrest⟩ := List.forall_mem_cons.mp hclaims
    have hnext : row ∈ between.rows := by
      have hstep := head.rowStep row.id
      rw [Jobs.row?_of_mem hrow] at hstep
      rcases hstep.queued hqueued with ⟨hsame, -⟩ | ⟨_, _, _, _, rfl, -, -⟩
      · exact Jobs.mem_of_row? hsame
      · exact absurd rfl hfirst
    have hstep := head.queuedAhead_add_le hrow hfirst
    have hrun := ih hnext hrest
    have hafter : (perform first e.statement).1 = between := congrArg Prod.fst head
    rw [List.countP_cons, arrivalsAhead, hafter]
    omega

end Machine

/-- The last of these jobs waits behind the first, and behind the second for its priority. -/
def threeJobs : Jobs ℕ :=
  (exec Jobs.empty [.insert ⟨"email", "null", 0, 1, 0, none, 0⟩,
    .insert ⟨"email", "null", 5, 5, 0, none, 0⟩, .insert ⟨"email", "null", 0, 5, 0, none, 0⟩]).2

/-- The second job is given back once, a fourth job comes in, and the first job fails for good. -/
def passingClaims : List (Statement ℕ) :=
  [.claim (some "w1") none 60 1, .settle (.fail "boom" 0) 2 (some "w1") 2,
    .insert ⟨"email", "null", 0, 5, 0, none, 2⟩, .claim (some "w2") none 60 3,
    .claim (some "w1") none 60 4, .settle (.fail "boom" 0) 1 (some "w1") 5]

theorem passes_le_threeJobs :
    ∃ row ∈ threeJobs.rows, row.id = 3 ∧
      (exec threeJobs passingClaims).1.countP (Event.couldTake row) = 3 ∧
      queuedAhead threeJobs row = 2 ∧
      arrivalsAhead row threeJobs (exec threeJobs passingClaims).1 = 1 ∧
      (exec threeJobs passingClaims).1.countP (Event.couldTake row) ≤
        queuedAhead threeJobs row + arrivalsAhead row threeJobs (exec threeJobs passingClaims).1 :=
  ⟨EnqueueArgs.row ⟨"email", "null", 0, 5, 0, none, 0⟩ 3, by decide, rfl, by decide, by decide,
    by decide, passes_le (run_exec threeJobs passingClaims) (by decide) rfl (by decide)⟩

end Relay.Queue
