import Relay.System.WorkerLoop
import Relay.Queue.Completion
import Mathlib.Algebra.Order.Archimedean.Basic
import Mathlib.Tactic.Linarith

/-!
# A worker brings its jobs to an end

An infinite run of the system with the loop of one worker in it. As long as the loop keeps taking
steps it polls again and again (`polls_recur`), so it reaps again and again (`reaps_recur`). Once
there is no new work and no heartbeat, its polls find nothing any more, and every sleep takes the
clock `poll_s` further (`clock_passes`). This is all that `jobs_come_to_end` asks for: from some
point on no job is leased, and every job of a kind the worker has a handler for is done or dead,
however the handlers end and whatever was done before (`loop_brings_to_end`). The `enqueue`s,
requeues and heartbeats of a handler are steps of another process here, so they have to stop too.
-/

set_option autoImplicit false
set_option relaxedAutoImplicit false

namespace Relay.System

open Foundations Store Queue Scheduler Workers

/-! ### The loop on the jobs table -/

/-- The loop itself takes the step. -/
def LoopEvent.Own : LoopEvent → Prop
  | .other _ => False
  | _ => True

/-- What a step does on the jobs table, if it is a statement on it. -/
def LoopEvent.queue? (e : LoopEvent) : Option (Queue.Event ℚ) := e.event?.bind Event.queue?

variable {timeText : ℚ → String} {worker : Worker} {args : RunArgs}
  {s t : (State × ℚ) × Loop} {e : LoopEvent} {es : List LoopEvent}

/-- A claim or reap of the system carries the time the step reads off the clock. -/
theorem Event.reading?_of_leaseTime? {e : Event} {entry : Queue.Event ℚ} {now : ℚ}
    (hentry : e.queue? = some entry) (hnow : entry.leaseTime? = some now) :
    e.reading? = some now := by
  cases e with
  | call entry =>
    cases hentry
    obtain ⟨statement, reply⟩ := entry
    cases statement <;> cases hnow <;> rfl
  | claim =>
    cases hentry
    exact hnow
  | _ => first
    | cases hentry; cases hnow
    | cases hentry

/-- On the jobs table and the clock, a step of the loop or beside it is a timed step. -/
theorem LoopStep.timed (h : LoopStep timeText worker args s e t) :
    TimedStep (s.1.1.db.jobs, s.1.2) e.queue? (t.1.1.db.jobs, t.1.2) := by
  obtain ⟨hsilent, hvisible⟩ := h.system
  cases hevent : e.event? with
  | none =>
    obtain ⟨hsame, hclock⟩ := hsilent hevent
    refine ⟨hclock, fun _ ↦ by simp only [hsame], ?_⟩
    simp [LoopEvent.queue?, hevent]
  | some event =>
    obtain ⟨hstep, hclock, -, hreading⟩ := hvisible event hevent
    have hqueue : e.queue? = event.queue? := by rw [LoopEvent.queue?, hevent, Option.bind_some]
    rw [hqueue]
    refine ⟨hclock, hstep.queue_step.1, fun entry hentry ↦ ⟨hstep.queue_step.2 entry hentry, ?_⟩⟩
    exact fun now hnow ↦ hreading now (Event.reading?_of_leaseTime? hentry hnow)

/-- The jobs table and the clock of an infinite run. -/
def jobsRun (x : InfiniteRun (LoopStep timeText worker args)) :
    InfiniteRun (TimedStep (τ := ℚ)) :=
  x.map (fun s ↦ (s.1.1.db.jobs, s.1.2)) LoopEvent.queue? fun _ _ _ h ↦ h.timed

/-! ### Steps towards the next poll -/

/-- The steps of the loop that are left until it polls. -/
def stepsToPoll (s : (State × ℚ) × Loop) : ℕ :=
  match s.2.point with
  | .head => 1
  | .asleep _ => 2
  | .running i =>
    match s.1.1.tasks i with
    | some (.delivery ⟨_, _, _, none⟩) => 3
    | _ => 2
  | _ => 0

/-- A step of another process changes neither the loop nor its call. -/
theorem stepsToPoll_other {s t : State × ℚ} {loop : Loop} {event : Event}
    (hother : ∀ i ∈ loop.task?, event.task? ≠ some i) (h : Step timeText s.1 event t.1) :
    stepsToPoll (t, loop) = stepsToPoll (s, loop) := by
  unfold stepsToPoll
  cases hpoint : loop.point with
  | running i =>
    have hi : event.task? ≠ some i := hother i (by simp [Loop.task?, hpoint])
    simp only [h.tasks_eq hi]
  | _ => rfl

theorem stepsToPoll_handled {s t : State × ℚ} {loop : Loop} {i : ℕ} {outcome : Outcome}
    (hpoint : loop.point = .running i) (h : Step timeText s.1 (.handled i outcome) t.1) :
    stepsToPoll (t, loop) < stepsToPoll (s, loop) := by
  have htask := h.taskStep i
  simp only [stepsToPoll, hpoint]
  generalize s.1.tasks i = before at htask ⊢
  generalize t.1.tasks i = after at htask ⊢
  cases htask with
  | handled => simp
  | other _ _ hi => exact absurd rfl hi

/-- A step of the loop polls, begins the next poll or comes closer to it; any other step leaves the
loop where it is. -/
theorem LoopStep.progress (h : LoopStep timeText worker args s e t) :
    (e.polls ∧ s.2.point = .polling ∧ t.2.point ≠ .polling ∧ t.2.ticks = s.2.ticks) ∨
    (s.2.point = .head ∧ t.2 = s.2.tick ∧ args.reapEvery ≠ 0 ∧
      (args.ReapsAt s.2.ticks → e.reaps)) ∨
    (s.2.point ≠ .polling ∧ t.2.point ≠ .polling ∧ t.2.ticks = s.2.ticks ∧
      stepsToPoll t < stepsToPoll s) ∨
    (¬ e.Own ∧ t.2 = s.2 ∧ stepsToPoll t = stepsToPoll s) := by
  cases h with
  | skips _ _ hpoint _ hzero hreap => exact .inr (.inl ⟨hpoint, rfl, hzero, fun h ↦ absurd h hreap⟩)
  | reaps _ _ _ _ hpoint _ hzero => exact .inr (.inl ⟨hpoint, rfl, hzero, fun _ ↦ rfl⟩)
  | polls _ t loop i job hpoint =>
    refine .inl ⟨rfl, hpoint, ?_⟩
    cases job with
    | none => rcases loop.ofClaim_none args i t.2 with hloop | ⟨_, -, -, hloop⟩ <;> simp [hloop]
    | some job => simp [Loop.ofClaim]
  | handled _ _ _ _ _ hpoint hstep =>
    refine .inr (.inr (.inl ⟨?_, ?_, rfl, stepsToPoll_handled hpoint hstep.1⟩)) <;> simp [hpoint]
  | settles _ _ _ _ _ _ _ hpoint =>
    refine .inr (.inr (.inl ⟨by simp [hpoint], by simp [Loop.finish], rfl, ?_⟩))
    simp only [stepsToPoll, Loop.finish, hpoint]
    split <;> omega
  | raises _ _ loop _ _ error hpoint =>
    refine .inr (.inr (.inl ⟨by simp [hpoint], ?_⟩))
    rcases loop.ofError_cases error with ⟨-, hloop⟩ | ⟨-, -, hloop⟩
    · rw [hloop]
      refine ⟨by simp [Loop.finish], rfl, ?_⟩
      simp only [stepsToPoll, Loop.finish, hpoint]
      split <;> omega
    · rw [hloop]
      refine ⟨by simp, rfl, ?_⟩
      simp only [stepsToPoll, hpoint]
      split <;> omega
  | other _ _ _ _ hother hstep =>
    exact .inr (.inr (.inr ⟨id, rfl, stepsToPoll_other hother hstep.1⟩))
  | _ => exact .inr (.inr (.inl (by simp [stepsToPoll, *])))

variable {x : InfiniteRun (LoopStep timeText worker args)}

/-- A loop that keeps taking steps polls again and again. -/
theorem polls_recur (hsteps : ∀ n, ∃ k, n ≤ k ∧ (x.label k).Own) :
    ∀ n, ∃ k, n ≤ k ∧ (x.label k).polls := by
  refine x.recurs stepsToPoll hsteps fun k ↦ ?_
  rcases (x.follows k).progress with ⟨hpolls, -⟩ | ⟨hhead, hnext, -⟩ | ⟨-, -, -, hcloser⟩ |
    ⟨hown, -, hsame⟩
  · exact .inl hpolls
  · refine .inr (.inl ?_)
    simp [stepsToPoll, hhead, hnext, Loop.tick]
  · exact .inr (.inl hcloser)
  · exact .inr (.inr ⟨hown, hsame⟩)

/-- So its polls are without bound. -/
theorem ticks_unbounded (hsteps : ∀ n, ∃ k, n ≤ k ∧ (x.label k).Own) (m : ℕ) :
    ∃ n, ∀ k, n ≤ k → m ≤ (x.state k).2.ticks := by
  -- the polls that are over
  let polled (s : (State × ℚ) × Loop) : ℤ := s.2.ticks - if s.2.point = .polling then 1 else 0
  have hkept : ∀ bound n, bound ≤ polled (x.state n) → ∀ k, n ≤ k → bound ≤ polled (x.state k) := by
    intro bound n hn
    refine x.keeps (fun s ↦ bound ≤ polled s) (fun k _ hk ↦ ?_) hn
    have hnext : polled (x.state (k + 1)) = polled (x.state k) + _ := (x.follows k).polled
    split_ifs at hnext <;> omega
  have hgrows : ∀ m : ℕ, ∃ n, (m : ℤ) - 1 ≤ polled (x.state n) := by
    intro m
    induction m with
    | zero =>
      refine ⟨0, ?_⟩
      simp only [polled]
      split_ifs <;> omega
    | succ m ih =>
      obtain ⟨n, hn⟩ := ih
      obtain ⟨k, hk, hpolls⟩ := polls_recur hsteps n
      refine ⟨k + 1, ?_⟩
      have hbefore := hkept _ n hn k hk
      have hnext : polled (x.state (k + 1)) = polled (x.state k) + _ := (x.follows k).polled
      rw [if_pos hpolls] at hnext
      push_cast
      omega
  obtain ⟨n, hn⟩ := hgrows (m + 1)
  refine ⟨n, fun k hk ↦ ?_⟩
  have hlater := hkept _ n hn k hk
  simp only [polled] at hlater
  push_cast at hlater
  split_ifs at hlater <;> omega

/-! ### Steps towards the next reap -/

theorem RunArgs.le_reapsFor (hzero : args.reapEvery ≠ 0) (ticks : ℕ) :
    ticks ≤ args.reapEvery.natAbs * args.reapsFor ticks := by
  have hpos : 0 < args.reapEvery.natAbs := Int.natAbs_pos.mpr hzero
  have hlt := Nat.lt_mul_div_succ (ticks + (args.reapEvery.natAbs - 1)) hpos
  rw [Nat.mul_add, mul_one] at hlt
  unfold reapsFor
  omega

/-- The polls that are left until the loop reaps, and the steps until the first of them begins. -/
def stepsToReap (args : RunArgs) (s : (State × ℚ) × Loop) : ℕ :=
  5 * (args.reapEvery.natAbs * args.reapsFor s.2.ticks - s.2.ticks) +
    if s.2.point = .polling then 4 else stepsToPoll s

theorem stepsToPoll_le (s : (State × ℚ) × Loop) : stepsToPoll s ≤ 3 := by
  unfold stepsToPoll
  split
  · omega
  · omega
  · split <;> omega
  · omega

/-- A loop that keeps taking steps reaps again and again. -/
theorem reaps_recur (hsteps : ∀ n, ∃ k, n ≤ k ∧ (x.label k).Own) :
    ∀ n, ∃ k, n ≤ k ∧ (x.label k).reaps := by
  refine x.recurs (stepsToReap args) hsteps fun k ↦ ?_
  have hle := stepsToPoll_le (x.state (k + 1))
  rcases (x.follows k).progress with ⟨-, hbefore, hafter, hticks⟩ | ⟨hhead, hnext, hzero, hreaps⟩ |
    ⟨hbefore, hafter, hticks, hcloser⟩ | ⟨hown, hloop, hsame⟩
  · refine .inr (.inl ?_)
    rw [stepsToReap, stepsToReap, if_pos hbefore, if_neg hafter, hticks]
    omega
  · by_cases hreap : args.ReapsAt (x.state k).2.ticks
    · exact .inl (hreaps hreap)
    · -- the next multiple of `reap_every` is one poll closer
      have hsame : args.reapsFor ((x.state k).2.ticks + 1) = args.reapsFor (x.state k).2.ticks := by
        rw [RunArgs.reapsFor_succ hzero, if_neg hreap, add_zero]
      have hbound := RunArgs.le_reapsFor hzero ((x.state k).2.ticks + 1)
      refine .inr (.inl ?_)
      rw [hsame] at hbound
      simp only [stepsToReap, hnext, Loop.tick, hhead, hsame, stepsToPoll]
      simp only [if_true, reduceCtorEq, if_false]
      omega
  · refine .inr (.inl ?_)
    rw [stepsToReap, stepsToReap, if_neg hbefore, if_neg hafter, hticks]
    omega
  · refine .inr (.inr ⟨hown, ?_⟩)
    rw [stepsToReap, stepsToReap, hloop, hsame]

/-! ### The clock -/

/-- A poll that finds nothing puts the loop to sleep, or ends it. -/
theorem LoopStep.asleep (h : LoopStep timeText worker args s e t) (hpolls : e.polls)
    (hnothing : e.receives = false) :
    t.2.point = .asleep (t.1.2 + args.pollS) ∨ ∃ error, t.2.point = .raised error := by
  cases h with
  | polls _ t loop i job =>
    cases job with
    | none =>
      rcases loop.ofClaim_none args i t.2 with hloop | ⟨error, -, -, hloop⟩
      · exact .inl (congrArg Loop.point hloop)
      · exact .inr ⟨error, congrArg Loop.point hloop⟩
    | some job => simp [LoopEvent.receives] at hnothing
  | _ => simp [LoopEvent.polls] at hpolls

/-- A loop that has raised takes no more steps. -/
theorem LoopStep.ended (h : LoopStep timeText worker args s e t) {error : RunError}
    (hpoint : s.2.point = .raised error) : ¬ e.Own ∧ t.2.point = .raised error := by
  cases h with
  | other => exact ⟨id, hpoint⟩
  | _ => simp_all

/-- So a loop that keeps taking steps never raises. -/
theorem not_raised (hsteps : ∀ n, ∃ k, n ≤ k ∧ (x.label k).Own) (n : ℕ) (error : RunError) :
    (x.state n).2.point ≠ .raised error := by
  intro hraised
  obtain ⟨k, -, hown, hstill⟩ := x.exists_marked (fun s ↦ s.2.point = .raised error) (hsteps n)
    (fun k _ hpoint ↦ ((x.follows k).ended hpoint).2) hraised
  exact ((x.follows k).ended hstill).1 hown

/-- A loop that sleeps does not wake up before its time. -/
theorem LoopStep.wakes_late (h : LoopStep timeText worker args s e t) {wakes : ℚ}
    (hpoint : s.2.point = .asleep wakes) :
    (e.Own → wakes ≤ t.1.2) ∧ (¬ e.Own → t.2.point = .asleep wakes) := by
  cases h with
  | wakes _ _ _ _ _ hpoint' _ hwakes =>
    simp only [hpoint', Point.asleep.injEq] at hpoint
    exact ⟨fun _ ↦ hpoint ▸ hwakes, fun hown ↦ absurd trivial hown⟩
  | other => exact ⟨fun hown ↦ hown.elim, fun _ ↦ hpoint⟩
  | _ => simp_all

/-- Once its polls find nothing, a loop that keeps taking steps sees the clock pass every time. -/
theorem clock_passes (hsteps : ∀ n, ∃ k, n ≤ k ∧ (x.label k).Own) (hpoll : 0 < args.pollS) {m : ℕ}
    (hnothing : ∀ k, m ≤ k → (x.label k).receives = false) (time : ℚ) :
    ∃ n, time < (x.state n).1.2 := by
  have hmono : ∀ {n k}, n ≤ k → (x.state n).1.2 ≤ (x.state k).1.2 := fun {n k} hk ↦
    TimedStep.clock_le (x := jobsRun x) hk
  -- each round of a poll and a sleep adds `poll_s`
  have hrounds : ∀ rounds : ℕ, ∃ n, m ≤ n ∧
      (x.state m).1.2 + rounds * args.pollS ≤ (x.state n).1.2 := by
    intro rounds
    induction rounds with
    | zero => exact ⟨m, le_rfl, by simp⟩
    | succ rounds ih =>
      obtain ⟨n, hn, hclock⟩ := ih
      obtain ⟨k, hk, hpolls⟩ := polls_recur hsteps n
      have hasleep := ((x.follows k).asleep hpolls (hnothing k (hn.trans hk))).resolve_right
        fun ⟨error, hraised⟩ ↦ not_raised hsteps (k + 1) error hraised
      obtain ⟨l, hl, hown, hstill⟩ := x.exists_marked
        (fun s ↦ s.2.point = .asleep ((x.state (k + 1)).1.2 + args.pollS)) (hsteps (k + 1))
        (fun k hown hpoint ↦ ((x.follows k).wakes_late hpoint).2 hown) hasleep
      refine ⟨l + 1, by omega, ?_⟩
      have hwoken := ((x.follows l).wakes_late hstill).1 hown
      have hbefore := hmono (show n ≤ k + 1 by omega)
      push_cast
      linarith
  obtain ⟨rounds, hrounds'⟩ := Archimedean.arch (time + 1 - (x.state m).1.2) hpoll
  obtain ⟨n, -, hn⟩ := hrounds rounds
  rw [nsmul_eq_mul] at hrounds'
  exact ⟨n, by linarith⟩

/-! ### The end of the jobs -/

theorem queue?_of_reaps (hreaps : e.reaps) (h : LoopStep timeText worker args s e t) :
    ∃ now reply, e.queue? = some ⟨.releaseExpired now, reply⟩ := by
  cases h with
  | reaps _ t _ reply => exact ⟨t.2, reply, rfl⟩
  | _ => simp [LoopEvent.reaps] at hreaps

theorem queue?_of_polls (hpolls : e.polls) (h : LoopStep timeText worker args s e t) :
    ∃ now job, e.queue? = some ⟨.claim (some worker.workerId) (some worker.handlers)
      worker.leaseS now, .claimed job⟩ ∧ e.receives = job.isSome := by
  cases h with
  | polls _ t _ _ job => exact ⟨t.2, job, rfl, rfl⟩
  | _ => simp [LoopEvent.polls] at hpolls

/-- A job is received by a step that starts its delivery. -/
theorem delivers_of_receives (hreceives : e.receives = true)
    (h : LoopStep timeText worker args s e t) :
    ∃ entry j, e.queue? = some entry ∧ j ∈ entry.delivers := by
  have hpolls : e.polls := by
    unfold LoopEvent.receives at hreceives
    split at hreceives
    · rfl
    · cases hreceives
  obtain ⟨now, job, hqueue, hjob⟩ := queue?_of_polls hpolls h
  rw [hjob] at hreceives
  obtain ⟨job, rfl⟩ := Option.isSome_iff_exists.mp hreceives
  exact ⟨_, job.id, hqueue, by simp [Queue.Event.delivers, Queue.Event.starts]⟩

/-- Nothing is received from a table at rest. -/
theorem receives_of_atRest {m k : ℕ} (hrest : AtRest (fun _ ↦ True) (jobsRun x) m) (hk : m ≤ k) :
    (x.label k).receives = false := by
  by_contra hreceives
  obtain ⟨entry, j, hqueue, hdelivers⟩ :=
    delivers_of_receives (Bool.eq_true_of_not_eq_false hreceives) (x.follows k)
  obtain ⟨row, hrow⟩ := (((x.follows k).timed.2.2 entry hqueue).1.rowStep j).row?_of_delivers
    hdelivers
  have hmem : row ∈ (((jobsRun x).state m).1.part fun _ ↦ True).rows := by
    rw [← (hrest k hk).1, Jobs.rows_part_true]
    exact Jobs.mem_of_row? hrow
  exact hrest.not_delivers hk hqueue hmem (Jobs.id_of_row? hrow ▸ hdelivers)

theorem settleKind_ne_extendLease {job : JobRow ℚ} {outcome : Outcome} (leaseS : ℚ) :
    settleKind worker job outcome ≠ .ok (.extendLease leaseS) := by
  intro hkind
  rcases settleKind_ok hkind with ⟨-, hkind⟩ | ⟨_, -, hkind⟩ | ⟨_, _, -, -, hkind⟩ <;> cases hkind

theorem settle_kind {s t : State} {i : ℕ} {delivery : Delivery} {kind : SettleKind ℚ}
    {result : Except PyError Unit} (h : Step timeText s (.settle i delivery kind result) t) :
    ∃ outcome, settleKind delivery.worker delivery.job outcome = .ok kind := by
  cases h with
  | settle _ _ outcome _ _ _ hkind => exact ⟨outcome, hkind⟩

/-- The loop itself brings no work and extends no lease. -/
theorem LoopStep.renews_of_own (h : LoopStep timeText worker args s e t) (hown : e.Own) :
    ∀ entry ∈ e.queue?, entry.renews = [] := by
  cases h with
  | reaps => rintro _ ⟨⟩; rfl
  | polls => rintro _ ⟨⟩; rfl
  | settles _ _ _ _ delivery kind _ _ hstep =>
    rintro _ ⟨⟩
    obtain ⟨outcome, hkind⟩ := settle_kind hstep.1
    cases kind with
    | extendLease leaseS => exact absurd hkind (settleKind_ne_extendLease leaseS)
    | _ => rfl
  | other => exact hown.elim
  | _ => simp [LoopEvent.queue?, LoopEvent.event?, Event.queue?]

/-- What holds of the entries of the other processes, and of those that renew nothing, holds of all
entries of the run. -/
theorem entries_of_others {property : ℕ → Queue.Event ℚ → Prop} {n : ℕ}
    (hothers : ∀ k e, n ≤ k → x.label k = .other e → ∀ entry ∈ e.queue?, property k entry)
    (hown : ∀ k entry, entry.renews = [] → property k entry) :
    ∀ k, n ≤ k → ∀ entry ∈ (jobsRun x).label k, property k entry := by
  intro k hk entry hentry
  by_cases hloop : (x.label k).Own
  · exact hown k entry ((x.follows k).renews_of_own hloop entry hentry)
  · cases hlabel : x.label k with
    | other e =>
      change entry ∈ (x.label k).queue? at hentry
      rw [hlabel] at hentry
      exact hothers k e hk hlabel entry hentry
    | _ => exact absurd (by rw [hlabel]; trivial) hloop

/-- A loop that keeps taking steps, beside a clock that passes every time, serves the kinds it has
handlers for, in every part of the table that claims take first. -/
theorem served_of_loop {front : Ticket ℚ → Prop}
    (hsteps : ∀ n, ∃ k, n ≤ k ∧ (x.label k).Own)
    (hclock : ∀ time, ∃ n, time < (x.state n).1.2)
    (hclosed : ∀ a b : JobRow ℚ, ClaimBefore a b → front b.ticket → front a.ticket)
    (hquiet : ∃ n, ∀ k, n ≤ k → ∀ entry ∈ (jobsRun x).label k,
      Quiet front entry ((jobsRun x).state (k + 1)).1) :
    Served front worker.handlers (jobsRun x) := by
  refine ⟨hclosed, hquiet, hclock, fun n ↦ ?_, fun n ↦ ?_⟩
  · obtain ⟨k, hk, hreaps⟩ := reaps_recur hsteps n
    exact ⟨k, hk, queue?_of_reaps hreaps (x.follows k)⟩
  · obtain ⟨k, hk, hpolls⟩ := polls_recur hsteps n
    obtain ⟨now, job, hqueue, -⟩ := queue?_of_polls hpolls (x.follows k)
    refine ⟨k, hk, _, _, _, now, _, hqueue, ?_⟩
    rintro _ ⟨⟩
    exact fun _ hkind ↦ hkind

/-- A worker whose loop keeps taking steps brings its jobs to an end. When the other processes stop
to bring new work and to extend leases at some point, then from some point on the rows of the jobs
table stay as they are, no job is leased, and every job of a kind that the worker has a handler for
is done or dead. What a handler itself writes to the database counts as a step of another process.
-/
theorem loop_brings_to_end {history : List Event}
    (hstart : Run (Step timeText) (.start .empty) history (x.state 0).1.1)
    (hpoll : 0 < args.pollS) (hsteps : ∀ n, ∃ k, n ≤ k ∧ (x.label k).Own)
    (hquiet : ∃ n, ∀ k e, n ≤ k → x.label k = .other e → ∀ entry ∈ e.queue?, entry.renews = []) :
    ∃ n, ∀ k, n ≤ k → (x.state k).1.1.db.jobs.rows = (x.state n).1.1.db.jobs.rows ∧
      ∀ row ∈ (x.state k).1.1.db.jobs.rows, row.status ≠ .leased ∧
        (row.kind ∈ worker.handlers → row.status = .done ∨ row.status = .dead) := by
  obtain ⟨n, hothers⟩ := hquiet
  have hn : ∀ k, n ≤ k → ∀ entry ∈ (jobsRun x).label k,
      Quiet (fun _ ↦ True) entry ((jobsRun x).state (k + 1)).1 := by
    refine entries_of_others (fun k e hk hlabel entry hentry row _ _ ↦ ?_)
      fun k entry hnone row _ _ ↦ ?_
    · simp [hothers k e hk hlabel entry hentry]
    · simp [hnone]
  obtain ⟨m, hrest⟩ := exists_atRest hn
  have hclock := clock_passes hsteps hpoll fun k hk ↦ receives_of_atRest hrest hk
  have hserved := served_of_loop hsteps hclock (fun _ _ _ _ ↦ trivial) ⟨n, hn⟩
  have hend := jobs_come_to_end hserved (run_queue hstart)
  simp only [Jobs.rows_part_true] at hend
  exact hend

/-! ### A worker beside a producer -/

/-- A handler that raises in the first delivery of a job and returns in the others. -/
def flakyHandler (job : JobRow ℚ) : Outcome :=
  if job.attempts ≤ 1 then .exception (.ok "ValueError()") else .returned

theorem exists_settleKind_flakyHandler (worker : Worker) (job : JobRow ℚ) :
    ∃ kind, settleKind worker job (flakyHandler job) = .ok kind := by
  unfold flakyHandler
  split_ifs with hfirst
  · have hpower : powTwo (job.attempts - 1) = .ok (2 ^ (job.attempts - 1)) := if_pos (by omega)
    exact ⟨.fail "ValueError()" _, by rw [settleKind, backoff, hpower]; rfl⟩
  · exact ⟨.ack, rfl⟩

variable {produces : ℕ → Prop} [DecidablePred produces]

/-- Who does the next step: before some of the polls a producer enqueues a job, a second after the
last step, and the loop does the others. -/
def busyAction (produces : ℕ → Prop) [DecidablePred produces] (s : (State × ℚ) × Loop) :
    LoopAction :=
  match s.2.point with
  | .head =>
    if produces s.2.ticks ∧ s.1.1.tasks (2 * s.2.ticks + 1) = none then
      .other (.enqueue (2 * s.2.ticks + 1) ⟨"email", "null", 0, 5, 0, none, s.1.2 + 1⟩)
        (s.1.2 + 1)
    else .own s.1.2 0 .returned
  | .running i =>
    match s.1.1.tasks i with
    | some (.delivery delivery) => .own s.1.2 0 (flakyHandler delivery.job)
    | _ => .own s.1.2 0 .returned
  | .asleep wakes => .own (max s.1.2 wakes) 0 .returned
  | _ => .own s.1.2 (2 * s.2.ticks) .returned

/-- What such a run keeps: the numbers of the calls to come are free. -/
structure Busy (worker : Worker) (s : (State × ℚ) × Loop) : Prop where
  free : ∀ k, 2 * s.2.ticks + 2 ≤ k → s.1.1.tasks k = none
  vacant : s.2.point = .head ∨ s.1.1.tasks (2 * s.2.ticks + 1) = none
  point : s.2.point = .head ∨ (∃ wakes, s.2.point = .asleep wakes) ∨
    (s.2.point = .polling ∧ s.1.1.tasks (2 * s.2.ticks) = none) ∨
    ∃ job now outcome, s.2.point = .running (2 * s.2.ticks) ∧
      s.1.1.tasks (2 * s.2.ticks) = some (.delivery ⟨worker, job, now, outcome⟩) ∧
      ∀ o ∈ outcome, o = flakyHandler job

/-- The steps until the producer may enqueue a job. -/
def stepsToProduce (s : (State × ℚ) × Loop) : ℕ :=
  match s.2.point with
  | .head => if s.1.1.tasks (2 * s.2.ticks + 1) = none then 1 else 6
  | .polling => 5
  | .running i =>
    match s.1.1.tasks i with
    | some (.delivery ⟨_, _, _, none⟩) => 4
    | _ => 3
  | .asleep _ => 2
  | _ => 0

/-- A step of the run: a job is enqueued, or the loop goes on towards the next one. -/
def BusyStep (worker : Worker) (produces : ℕ → Prop) (s : (State × ℚ) × Loop) (e : LoopEvent)
    (t : (State × ℚ) × Loop) : Prop :=
  Busy worker t ∧
    ((∃ i now id, e = .other (.enqueue i ⟨"email", "null", 0, 5, 0, none, now⟩ id) ∧
      produces s.2.ticks ∧ s.1.1.tasks (2 * s.2.ticks + 1) = none ∧ t.1.2 = s.1.2 + 1 ∧
      t.1.1.tasks (2 * t.2.ticks + 1) ≠ none) ∨
    (e.Own ∧ (produces s.2.ticks → stepsToProduce t < stepsToProduce s)))

/-- What the call of the loop does leaves the calls to come free. -/
theorem Busy.free_setTask (h : Busy worker s) (hpoint : s.2.point ≠ .head) (jobs : Jobs ℚ)
    (task : Task) {k : ℕ} (hk : 2 * s.2.ticks + 1 ≤ k) :
    ((s.1.1.setJobs jobs).setTask (2 * s.2.ticks) task).tasks k = none := by
  rw [State.tasks_setTask, if_neg (by omega)]
  rcases hk.eq_or_lt with rfl | hlt
  · exact h.vacant.resolve_left hpoint
  · exact h.free k hlt

/-- The producer enqueues a job. -/
theorem busy_producing (h : Busy worker s) (hpoint : s.2.point = .head)
    (hproduces : produces s.2.ticks ∧ s.1.1.tasks (2 * s.2.ticks + 1) = none) :
    ∃ e t, loopAct wholeSeconds worker args s (busyAction produces s) = some (e, t) ∧
      BusyStep worker produces s e t := by
  obtain ⟨⟨s, clock⟩, done, ticks, point⟩ := s
  obtain rfl : point = .head := hpoint
  dsimp only at hproduces
  let email : EnqueueArgs ℚ := ⟨"email", "null", 0, 5, 0, none, clock + 1⟩
  let t : State := (s.setJobs (insert s.db.jobs email).1).setTask (2 * ticks + 1)
    (.ofInsert email (insert s.db.jobs email).2)
  have hact : actAt wholeSeconds (s, clock) (.enqueue (2 * ticks + 1) email, clock + 1) =
      some ((.enqueue (2 * ticks + 1) email (insert s.db.jobs email).2, clock + 1),
        (t, clock + 1)) := by
    simp only [actAt, act, if_pos hproduces.2]
    exact if_pos ⟨by simp, by rintro _ ⟨⟩; rfl⟩
  refine ⟨.other (.enqueue (2 * ticks + 1) email (insert s.db.jobs email).2),
    ((t, clock + 1), ⟨done, ticks, .head⟩), ?_, ⟨fun k hk ↦ ?_, .inl rfl, .inl rfl⟩,
    .inl ⟨_, _, _, rfl, hproduces.1, hproduces.2, rfl, ?_⟩⟩
  · simp only [busyAction, if_pos hproduces, loopAct]
    rw [hact]
    exact if_pos (by simp [Loop.task?])
  · have hne : k ≠ 2 * ticks + 1 := by
      have hle : 2 * ticks + 2 ≤ k := hk
      omega
    exact (State.tasks_setTask ..).trans ((if_neg hne).trans (h.free k hk))
  · simp [t]

/-- The loop goes on to its next poll, after it reaped or without. -/
theorem busy_head (hmax : args.maxJobs = none) (hzero : args.reapEvery ≠ 0) (h : Busy worker s)
    (hpoint : s.2.point = .head)
    (hproduces : ¬ (produces s.2.ticks ∧ s.1.1.tasks (2 * s.2.ticks + 1) = none)) :
    ∃ e t, loopAct wholeSeconds worker args s (busyAction produces s) = some (e, t) ∧
      BusyStep worker produces s e t := by
  obtain ⟨⟨s, clock⟩, done, ticks, point⟩ := s
  obtain ⟨hfree, -, -⟩ := h
  obtain rfl : point = .head := hpoint
  dsimp only at hfree hproduces
  have hon : args.GoesOn done := by simp [RunArgs.GoesOn, hmax]
  have hact : busyAction produces ((s, clock), ⟨done, ticks, .head⟩) =
      .own clock 0 .returned := if_neg hproduces
  have hbusy : ∀ jobs, Busy worker ((s.setJobs jobs, clock), Loop.tick ⟨done, ticks, .head⟩) :=
    fun jobs ↦ ⟨fun k hk ↦ hfree k (by simp only [Loop.tick] at hk; omega),
      .inr (hfree _ (by simp only [Loop.tick]; omega)),
      .inr (.inr (.inl ⟨rfl, hfree _ (by simp only [Loop.tick]; omega)⟩))⟩
  have hcloser : ∀ jobs, produces ticks →
      stepsToProduce ((s.setJobs jobs, clock), Loop.tick ⟨done, ticks, .head⟩) <
        stepsToProduce ((s, clock), ⟨done, ticks, .head⟩) := by
    intro jobs hticks
    have htaken : s.tasks (2 * ticks + 1) ≠ none := fun hnone ↦ hproduces ⟨hticks, hnone⟩
    simp [stepsToProduce, Loop.tick, htaken]
  rw [hact]
  by_cases hreap : args.ReapsAt ticks
  · refine ⟨.own (.call ⟨.releaseExpired clock, (perform s.db.jobs (.releaseExpired clock)).2⟩),
      ((s.setJobs (perform s.db.jobs (.releaseExpired clock)).1, clock), _), ?_, hbusy _,
      .inr ⟨trivial, hcloser _⟩⟩
    simp only [loopAct, Loop.act, if_pos hon, if_neg hzero, if_pos hreap]
    exact if_pos le_rfl
  · refine ⟨.silent, ((s, clock), _), ?_, hbusy s.db.jobs, .inr ⟨trivial, hcloser s.db.jobs⟩⟩
    simp only [loopAct, Loop.act, if_pos hon, if_neg hzero, if_neg hreap]

theorem busy_polling (hsleep : sleepError? args.pollS = none) (h : Busy worker s)
    (hpoint : s.2.point = .polling) (hnext : s.1.1.tasks (2 * s.2.ticks) = none) :
    ∃ e t, loopAct wholeSeconds worker args s (busyAction produces s) = some (e, t) ∧
      BusyStep worker produces s e t := by
  obtain ⟨⟨s, clock⟩, done, ticks, point⟩ := s
  obtain rfl : point = .polling := hpoint
  have hfree : ∀ jobs task k, 2 * ticks + 1 ≤ k →
      ((s.setJobs jobs).setTask (2 * ticks) task).tasks k = none :=
    fun jobs task k hk ↦ h.free_setTask (by simp) jobs task hk
  have hact : loopAct wholeSeconds worker args ((s, clock), ⟨done, ticks, .polling⟩)
      (.own clock (2 * ticks) .returned) =
        some (.own (.claim (2 * ticks) worker clock (claimJob worker s.db.jobs clock).2),
          ((s.setJobs (claimJob worker s.db.jobs clock).1).setTask (2 * ticks)
            (.ofClaim worker clock (claimJob worker s.db.jobs clock).2), clock),
          Loop.ofClaim ⟨done, ticks, .polling⟩ args (2 * ticks) clock
            (claimJob worker s.db.jobs clock).2) := by
    simp only [loopAct, Loop.act]
    exact if_pos ⟨hnext, le_rfl⟩
  refine ⟨_, _, hact, ?_⟩
  cases (claimJob worker s.db.jobs clock).2 with
  | none =>
    have hasleep : Loop.ofClaim ⟨done, ticks, .polling⟩ args (2 * ticks) clock none =
        ⟨done, ticks, .asleep (clock + args.pollS)⟩ := by simp [Loop.ofClaim, hsleep]
    rw [hasleep]
    refine ⟨⟨fun k hk ↦ ?_, .inr ?_, .inr (.inl ⟨_, rfl⟩)⟩, .inr ⟨trivial, fun _ ↦ ?_⟩⟩
    · exact hfree _ _ k (Nat.le_of_succ_le hk)
    · exact hfree _ _ _ le_rfl
    · simp [stepsToProduce]
  | some job =>
    refine ⟨⟨fun k hk ↦ ?_, .inr ?_, .inr (.inr (.inr ⟨job, clock, none, rfl, ?_, by simp⟩))⟩,
      .inr ⟨trivial, fun _ ↦ ?_⟩⟩
    · exact hfree _ _ k (Nat.le_of_succ_le hk)
    · exact hfree _ _ _ le_rfl
    · simp [Loop.ofClaim, Task.ofClaim]
    · simp [stepsToProduce, Loop.ofClaim, Task.ofClaim]

theorem busy_running (h : Busy worker s) {job : JobRow ℚ} {now : ℚ} {outcome : Option Outcome}
    (hpoint : s.2.point = .running (2 * s.2.ticks))
    (htask : s.1.1.tasks (2 * s.2.ticks) = some (.delivery ⟨worker, job, now, outcome⟩))
    (hhandler : ∀ o ∈ outcome, o = flakyHandler job) :
    ∃ e t, loopAct wholeSeconds worker args s (busyAction produces s) = some (e, t) ∧
      BusyStep worker produces s e t := by
  obtain ⟨⟨s, clock⟩, done, ticks, point⟩ := s
  obtain rfl : point = .running (2 * ticks) := hpoint
  dsimp only at htask
  have hopen : s.tasks (2 * ticks + 1) = none := h.vacant.resolve_left (by simp)
  have hfree : ∀ jobs task k, 2 * ticks + 1 ≤ k →
      ((s.setJobs jobs).setTask (2 * ticks) task).tasks k = none :=
    fun jobs task k hk ↦ h.free_setTask (by simp) jobs task hk
  have haction : busyAction produces ((s, clock), ⟨done, ticks, .running (2 * ticks)⟩) =
      .own clock 0 (flakyHandler job) := by simp only [busyAction, htask]
  rw [haction]
  cases outcome with
  | none =>
    refine ⟨.own (.handled (2 * ticks) (flakyHandler job)),
      ((s.setTask (2 * ticks) (.delivery ⟨worker, job, now, some (flakyHandler job)⟩), clock),
        ⟨done, ticks, .running (2 * ticks)⟩), ?_, ⟨fun k hk ↦ ?_, .inr ?_,
        .inr (.inr (.inr ⟨job, now, some (flakyHandler job), rfl, ?_, ?_⟩))⟩,
      .inr ⟨trivial, fun _ ↦ ?_⟩⟩
    · simp only [loopAct, Loop.act, htask]
      exact if_pos le_rfl
    · exact hfree s.db.jobs _ k (Nat.le_of_succ_le hk)
    · exact hfree s.db.jobs _ _ le_rfl
    · simp
    · rintro _ ⟨⟩
      rfl
    · simp [stepsToProduce, htask]
  | some outcome =>
    obtain rfl := hhandler outcome rfl
    obtain ⟨kind, hkind⟩ := exists_settleKind_flakyHandler worker job
    let settled := settle s.db.jobs kind job.id (some worker.workerId) now
    refine ⟨.own (.settle (2 * ticks) ⟨worker, job, now, some (flakyHandler job)⟩ kind settled.2),
      (((s.setJobs settled.1).setTask (2 * ticks) .finished, clock), ⟨done + 1, ticks, .head⟩), ?_,
      ⟨fun k hk ↦ ?_, .inl rfl, .inl rfl⟩, .inr ⟨trivial, fun _ ↦ ?_⟩⟩
    · simp only [loopAct, Loop.act, htask, hkind]
      exact if_pos le_rfl
    · exact hfree _ _ k (Nat.le_of_succ_le hk)
    · simp [stepsToProduce, htask, hopen]

theorem busy_asleep (h : Busy worker s) {wakes : ℚ} (hpoint : s.2.point = .asleep wakes) :
    ∃ e t, loopAct wholeSeconds worker args s (busyAction produces s) = some (e, t) ∧
      BusyStep worker produces s e t := by
  obtain ⟨⟨s, clock⟩, done, ticks, point⟩ := s
  obtain ⟨hfree, hopen, -⟩ := h
  obtain rfl : point = .asleep wakes := hpoint
  have hopen : s.tasks (2 * ticks + 1) = none := hopen.resolve_left (by simp)
  refine ⟨.silent, ((s, max clock wakes), ⟨done, ticks, .head⟩), ?_,
    ⟨hfree, .inl rfl, .inl rfl⟩, .inr ⟨trivial, fun _ ↦ ?_⟩⟩
  · simp only [busyAction, loopAct, Loop.act]
    exact if_pos ⟨le_max_left _ _, le_max_right _ _⟩
  · simp [stepsToProduce, hopen]

/-- The next step of the run. -/
def busyNext (worker : Worker) (args : RunArgs) (produces : ℕ → Prop) [DecidablePred produces]
    (s : (State × ℚ) × Loop) : LoopEvent × ((State × ℚ) × Loop) :=
  (loopAct wholeSeconds worker args s (busyAction produces s)).getD (.silent, s)

theorem busyNext_sound (hmax : args.maxJobs = none) (hzero : args.reapEvery ≠ 0)
    (hsleep : sleepError? args.pollS = none) (h : Busy worker s) :
    LoopStep wholeSeconds worker args s (busyNext worker args produces s).1
        (busyNext worker args produces s).2 ∧
      BusyStep worker produces s (busyNext worker args produces s).1
        (busyNext worker args produces s).2 := by
  obtain ⟨e, t, hact, hbusy⟩ : ∃ e t,
      loopAct wholeSeconds worker args s (busyAction produces s) = some (e, t) ∧
        BusyStep worker produces s e t := by
    rcases h.point with hpoint | ⟨wakes, hpoint⟩ | ⟨hpoint, hnext⟩ |
      ⟨job, now, outcome, hpoint, htask, hhandler⟩
    · by_cases hproduces : produces s.2.ticks ∧ s.1.1.tasks (2 * s.2.ticks + 1) = none
      · exact busy_producing h hpoint hproduces
      · exact busy_head hmax hzero h hpoint hproduces
    · exact busy_asleep h hpoint
    · exact busy_polling hsleep h hpoint hnext
    · exact busy_running h hpoint htask hhandler
  have hnext : busyNext worker args produces s = (e, t) := by rw [busyNext, hact, Option.getD_some]
  rw [hnext]
  exact ⟨step_loopAct hact, hbusy⟩

/-- A worker is given a job, and stops. -/
def crashedWorker : List Action :=
  [.enqueue 0 ⟨"email", "null", 0, 3, 0, none, 0⟩, .claim 1 ⟨"w1", 60, 1, 300, ["email"]⟩ 0]

/-- The system after that, when another worker starts its loop. -/
def afterCrash : (State × ℚ) × Loop :=
  (((runActions wholeSeconds (.start .empty) crashedWorker).2, 0), .start)

/-- The other worker. -/
def secondWorker : Worker where
  workerId := "w2"
  handlers := ["email"]

theorem busy_afterCrash : Busy secondWorker afterCrash where
  free k hk := by
    have hcalls : ∀ e ∈ (runActions wholeSeconds (.start .empty) crashedWorker).1,
        ∀ i ∈ e.task?, i < 2 := by decide +kernel
    refine ((run_runActions wholeSeconds (.start .empty) crashedWorker).view_of_labels
      (fun e ↦ e.task? ≠ some k) (fun s ↦ s.tasks k) (fun _ _ _ he h ↦ h.tasks_eq he)
      fun e he hk' ↦ ?_)
    have hlt := hcalls e he k hk'
    have hle : 0 + 2 ≤ k := hk
    omega
  vacant := .inl rfl
  point := .inl rfl

/-- The loop of the other worker from there on, beside the producer. -/
def busyRun (produces : ℕ → Prop) [DecidablePred produces] :
    InfiniteRun (LoopStep wholeSeconds secondWorker {}) :=
  .iterate (busyNext secondWorker {} produces) (Busy secondWorker)
    (fun _ h ↦
      have hnext := busyNext_sound rfl (by decide) (by decide +kernel) h
      ⟨hnext.1, hnext.2.1⟩)
    afterCrash busy_afterCrash

theorem busyStep_busyRun (produces : ℕ → Prop) [DecidablePred produces] (k : ℕ) :
    BusyStep secondWorker produces ((busyRun produces).state k) ((busyRun produces).label k)
      ((busyRun produces).state (k + 1)) := by
  obtain ⟨hbusy, hnext⟩ : Busy secondWorker ((busyRun produces).state k) ∧
      busyNext secondWorker {} produces ((busyRun produces).state k) =
        ((busyRun produces).label k, (busyRun produces).state (k + 1)) :=
    InfiniteRun.iterate_step k
  have hsound : BusyStep secondWorker produces ((busyRun produces).state k)
      (busyNext secondWorker {} produces ((busyRun produces).state k)).1
      (busyNext secondWorker {} produces ((busyRun produces).state k)).2 :=
    (busyNext_sound rfl (by decide) (by decide +kernel) hbusy).2
  rw [hnext] at hsound
  exact hsound

theorem own_busyRun (produces : ℕ → Prop) [DecidablePred produces] (n : ℕ) :
    ∃ k, n ≤ k ∧ ((busyRun produces).label k).Own := by
  rcases (busyStep_busyRun produces n).2 with
    ⟨_, _, _, -, -, -, -, htaken⟩ | ⟨hown, -⟩
  · -- the producer never takes two steps in a row
    rcases (busyStep_busyRun produces (n + 1)).2 with
      ⟨_, _, _, -, -, hfree, -⟩ | ⟨hown, -⟩
    · exact absurd hfree htaken
    · exact ⟨n + 1, Nat.le_succ n, hown⟩
  · exact ⟨n, le_rfl, hown⟩

/-- The producer stops after three polls. The loop brings its jobs to an end, and that of the worker
that stopped. -/
theorem loop_brings_to_end_busyRun :
    ∃ n, ∀ k, n ≤ k → ∀ row ∈ ((busyRun (· < 3)).state k).1.1.db.jobs.rows,
      row.kind = "email" → row.status = .done ∨ row.status = .dead := by
  obtain ⟨m, hticks⟩ := ticks_unbounded (own_busyRun (· < 3)) 3
  obtain ⟨n, hn⟩ := loop_brings_to_end
    (run_runActions wholeSeconds (.start .empty) crashedWorker) (by decide +kernel)
    (own_busyRun (· < 3)) ⟨m, fun k e hk he ↦ by
      rcases (busyStep_busyRun (· < 3) k).2 with ⟨_, _, _, -, hfew, -⟩ | ⟨hown, -⟩
      · exact absurd hfew (not_lt.mpr (hticks k hk))
      · rw [he] at hown
        exact hown.elim⟩
  exact ⟨n, fun k hk row hrow hkind ↦ ((hn k hk).2 row hrow).2 (by simp [hkind, secondWorker])⟩

end Relay.System
