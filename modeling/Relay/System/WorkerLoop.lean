import Relay.System.Clock
import Mathlib.Data.Int.Basic

/-!
# The loop of a worker

`Worker.run` in `worker.py` among other processes. `Loop` holds the local variables of the call and
the point it has reached, and `LoopStep` is a step of the system beside it: the loop's own next
statement, a step on its variables alone, or a step of another process. Heartbeats of a running
handler count as steps of other processes. `Loop.act` computes the steps of the loop.

What the variables say of the history holds at every point of it (`run_accounts`): `done` is the
number of deliveries the loop is through with and `ticks` that of its polls, the reaper ran once for
every `reap_every` polls begun, `run` returns with exactly `max_jobs` jobs done, and it raises only
for a `reap_every` of 0, a `poll_s` that `time.sleep` does not take, or what `run_once` lets out: an
overflow of the retry delay, or what the `repr` of an exception raises. A handler that ends with a
`BaseException` other than an `Exception`, as on an interrupt, counts as one that never ends.
-/

set_option autoImplicit false
set_option relaxedAutoImplicit false

namespace Relay.System

open Foundations Store Queue Scheduler Workers

/-! ### The loop -/

/-- The arguments of `run`, with its defaults. -/
structure RunArgs where
  maxJobs : Option ℤ := none
  pollS : ℚ := 1 / 2
  reapEvery : ℤ := 20
deriving DecidableEq, Repr

/-- What ends a `run` early: `ticks % 0`, a length that `sleep` does not take or what `run_once`
raises. -/
inductive RunError
  | zeroDivisionError
  | valueError
  | overflowError
  | runOnce (error : PyError)
deriving DecidableEq, Repr

/-- What `time.sleep` raises for a length: its nanoseconds have to fit in 64 bits with a sign, and
must not be negative. -/
def sleepError? (seconds : ℚ) : Option RunError :=
  if seconds * 10 ^ 9 < -2 ^ 63 ∨ 2 ^ 63 - 1 < seconds * 10 ^ 9 then some .overflowError
  else if seconds < 0 then some .valueError
  else none

/-- The points of a `run`: the head of its loop, the call of `run_once`, a `run_once` that was given
a job, `sleep`, and its two ends. -/
inductive Point
  | head
  | polling
  | running (task : ℕ)
  | asleep (wakes : ℚ)
  | returned
  | raised (error : RunError)
deriving DecidableEq, Repr

/-- The local variables of a `run` and the point it has reached. -/
structure Loop where
  done : ℕ := 0
  ticks : ℕ := 0
  point : Point := .head
deriving DecidableEq, Repr

def Loop.start : Loop := {}

/-- `max_jobs is None or done < max_jobs`. -/
def RunArgs.GoesOn (args : RunArgs) (done : ℕ) : Prop := ∀ limit ∈ args.maxJobs, (done : ℤ) < limit

instance (args : RunArgs) (done : ℕ) : Decidable (args.GoesOn done) :=
  inferInstanceAs (Decidable (∀ limit ∈ args.maxJobs, (done : ℤ) < limit))

/-- `ticks % reap_every == 0`. -/
def RunArgs.ReapsAt (args : RunArgs) (ticks : ℕ) : Prop := (ticks : ℤ) % args.reapEvery = 0

instance (args : RunArgs) (ticks : ℕ) : Decidable (args.ReapsAt ticks) :=
  inferInstanceAs (Decidable (_ = _))

/-- After `ticks += 1`. -/
def Loop.tick (loop : Loop) : Loop := { loop with ticks := loop.ticks + 1, point := .polling }

/-- After the claim of `run_once`: the handler runs, or there was nothing to do and the loop sleeps,
for `poll_s` seconds at least. -/
def Loop.ofClaim (loop : Loop) (args : RunArgs) (i : ℕ) (now : ℚ) : Option (JobRow ℚ) → Loop
  | some _ => { loop with point := .running i }
  | none =>
    match sleepError? args.pollS with
    | some error => { loop with point := .raised error }
    | none => { loop with point := .asleep (now + args.pollS) }

/-- After `done += 1`. -/
def Loop.finish (loop : Loop) : Loop := { loop with done := loop.done + 1, point := .head }

/-- After a `run_once` without a settle statement. -/
def Loop.ofError (loop : Loop) (error : PyError) : Loop :=
  match discardStale (.error error) with
  | .ok _ => loop.finish
  | .error error => { loop with point := .raised (.runOnce error) }

/-- The call of the loop that is in progress. -/
def Loop.task? (loop : Loop) : Option ℕ :=
  match loop.point with
  | .running i => some i
  | _ => none

/-- A poll that finds nothing puts the loop to sleep, or ends it. -/
theorem Loop.ofClaim_none (loop : Loop) (args : RunArgs) (i : ℕ) (now : ℚ) :
    loop.ofClaim args i now none = { loop with point := .asleep (now + args.pollS) } ∨
      ∃ error, sleepError? args.pollS = some error ∧
        (error = .valueError ∨ error = .overflowError) ∧
        loop.ofClaim args i now none = { loop with point := .raised error } := by
  unfold Loop.ofClaim
  cases hsleep : sleepError? args.pollS with
  | none => exact .inl rfl
  | some error =>
    refine .inr ⟨error, rfl, ?_, rfl⟩
    unfold sleepError? at hsleep
    split_ifs at hsleep
    · exact .inr (Option.some.inj hsleep).symm
    · exact .inl (Option.some.inj hsleep).symm

/-- A `StaleLeaseError` ends a `run_once` like any other, and another exception ends the loop. -/
theorem Loop.ofError_cases (loop : Loop) (error : PyError) :
    ((discardStale (.error error)).isOk ∧ loop.ofError error = loop.finish) ∨
      (¬ (discardStale (.error error)).isOk ∧
        (∀ jobId workerId, error ≠ .staleLeaseError jobId workerId) ∧
        loop.ofError error = { loop with point := .raised (.runOnce error) }) := by
  unfold Loop.ofError
  rcases discardStale_error error with hstale | ⟨hraised, hother⟩
  · rw [hstale]
    exact .inl ⟨rfl, rfl⟩
  · rw [hraised]
    exact .inr ⟨nofun, hother, rfl⟩

/-! ### The loop among other processes -/

/-- One entry of the history: a step of the loop that is a step of the system, a step on its own
variables, or a step of another process. -/
inductive LoopEvent
  | own (e : Event)
  | silent
  | other (e : Event)
deriving DecidableEq

/-- The step of the system in an entry of the history. -/
def LoopEvent.event? : LoopEvent → Option Event
  | .own e => some e
  | .silent => none
  | .other e => some e

/-- One step of the system with a `run` in it. -/
inductive LoopStep (timeText : ℚ → String) (worker : Worker) (args : RunArgs) :
    (State × ℚ) × Loop → LoopEvent → (State × ℚ) × Loop → Prop
  | returns (s : State × ℚ) (loop : Loop) (hpoint : loop.point = .head)
      (hstop : ¬ args.GoesOn loop.done) :
      LoopStep timeText worker args (s, loop) .silent (s, { loop with point := .returned })
  | divides (s : State × ℚ) (loop : Loop) (hpoint : loop.point = .head)
      (hon : args.GoesOn loop.done) (hzero : args.reapEvery = 0) :
      LoopStep timeText worker args (s, loop) .silent
        (s, { loop with point := .raised .zeroDivisionError })
  | skips (s : State × ℚ) (loop : Loop) (hpoint : loop.point = .head)
      (hon : args.GoesOn loop.done) (hzero : args.reapEvery ≠ 0)
      (hreap : ¬ args.ReapsAt loop.ticks) :
      LoopStep timeText worker args (s, loop) .silent (s, loop.tick)
  | reaps (s t : State × ℚ) (loop : Loop) (reply : Reply ℚ) (hpoint : loop.point = .head)
      (hon : args.GoesOn loop.done) (hzero : args.reapEvery ≠ 0) (hreap : args.ReapsAt loop.ticks)
      (hstep : ClockedStep timeText s (.call ⟨.releaseExpired t.2, reply⟩, t.2) t) :
      LoopStep timeText worker args (s, loop) (.own (.call ⟨.releaseExpired t.2, reply⟩))
        (t, loop.tick)
  | polls (s t : State × ℚ) (loop : Loop) (i : ℕ) (job : Option (JobRow ℚ))
      (hpoint : loop.point = .polling)
      (hstep : ClockedStep timeText s (.claim i worker t.2 job, t.2) t) :
      LoopStep timeText worker args (s, loop) (.own (.claim i worker t.2 job))
        (t, loop.ofClaim args i t.2 job)
  | handled (s t : State × ℚ) (loop : Loop) (i : ℕ) (outcome : Outcome)
      (hpoint : loop.point = .running i)
      (hstep : ClockedStep timeText s (.handled i outcome, t.2) t) :
      LoopStep timeText worker args (s, loop) (.own (.handled i outcome)) (t, loop)
  | settles (s t : State × ℚ) (loop : Loop) (i : ℕ) (delivery : Delivery) (kind : SettleKind ℚ)
      (result : Except PyError Unit) (hpoint : loop.point = .running i)
      (hstep : ClockedStep timeText s (.settle i delivery kind result, t.2) t) :
      LoopStep timeText worker args (s, loop) (.own (.settle i delivery kind result))
        (t, loop.finish)
  | raises (s t : State × ℚ) (loop : Loop) (i : ℕ) (delivery : Delivery) (error : PyError)
      (hpoint : loop.point = .running i)
      (hstep : ClockedStep timeText s (.raised i delivery error, t.2) t) :
      LoopStep timeText worker args (s, loop) (.own (.raised i delivery error))
        (t, loop.ofError error)
  | wakes (s : State) (clock now wakes : ℚ) (loop : Loop) (hpoint : loop.point = .asleep wakes)
      (hclock : clock ≤ now) (hwakes : wakes ≤ now) :
      LoopStep timeText worker args ((s, clock), loop) .silent
        ((s, now), { loop with point := .head })
  | other (s t : State × ℚ) (loop : Loop) (e : Event) (hother : ∀ i ∈ loop.task?, e.task? ≠ some i)
      (hstep : ClockedStep timeText s (e, t.2) t) :
      LoopStep timeText worker args (s, loop) (.other e) (t, loop)

variable {timeText : ℚ → String} {worker : Worker} {args : RunArgs}
  {s t : (State × ℚ) × Loop} {e : LoopEvent} {es : List LoopEvent}

/-- A step of the loop is the step of the system that its label says, or leaves all but the clock
alone. -/
theorem LoopStep.system (h : LoopStep timeText worker args s e t) :
    (e.event? = none → t.1.1 = s.1.1 ∧ s.1.2 ≤ t.1.2) ∧
      ∀ event, e.event? = some event → ClockedStep timeText s.1 (event, t.1.2) t.1 := by
  cases h with
  | wakes _ _ _ _ _ _ hclock _ => exact ⟨fun _ ↦ ⟨rfl, hclock⟩, by simp [LoopEvent.event?]⟩
  | returns => exact ⟨fun _ ↦ ⟨rfl, le_rfl⟩, by simp [LoopEvent.event?]⟩
  | divides => exact ⟨fun _ ↦ ⟨rfl, le_rfl⟩, by simp [LoopEvent.event?]⟩
  | skips => exact ⟨fun _ ↦ ⟨rfl, le_rfl⟩, by simp [LoopEvent.event?]⟩
  | _ => exact ⟨by simp [LoopEvent.event?], by rintro _ ⟨⟩; assumption⟩

/-! ### Running the loop -/

/-- Who does the next step: the loop, which may read the clock, give a number to its next call or
have its handler end, or another process. -/
inductive LoopAction
  | own (now : ℚ) (i : ℕ) (outcome : Outcome)
  | other (action : Action) (now : ℚ)
deriving DecidableEq

/-- The next step of the loop, if the clock allows it. -/
def Loop.act (worker : Worker) (args : RunArgs) (s : State × ℚ) (loop : Loop) (now : ℚ) (i : ℕ)
    (outcome : Outcome) : Option (LoopEvent × ((State × ℚ) × Loop)) :=
  match loop.point with
  | .head =>
    if args.GoesOn loop.done then
      if args.reapEvery = 0 then
        some (.silent, s, { loop with point := .raised .zeroDivisionError })
      else if args.ReapsAt loop.ticks then
        if s.2 ≤ now then
          let (jobs, reply) := perform s.1.db.jobs (.releaseExpired now)
          some (.own (.call ⟨.releaseExpired now, reply⟩), (s.1.setJobs jobs, now), loop.tick)
        else none
      else some (.silent, s, loop.tick)
    else some (.silent, s, { loop with point := .returned })
  | .polling =>
    if s.1.tasks i = none ∧ s.2 ≤ now then
      let (jobs, job) := claimJob worker s.1.db.jobs now
      some (.own (.claim i worker now job),
        ((s.1.setJobs jobs).setTask i (.ofClaim worker now job), now), loop.ofClaim args i now job)
    else none
  | .running k =>
    if s.2 ≤ now then
      match s.1.tasks k with
      | some (.delivery ⟨by', job, time, none⟩) =>
        some (.own (.handled k outcome),
          (s.1.setTask k (.delivery ⟨by', job, time, some outcome⟩), now), loop)
      | some (.delivery ⟨by', job, time, some outcome⟩) =>
        match settleKind by' job outcome with
        | .ok kind =>
          let (jobs, result) := settle s.1.db.jobs kind job.id (some by'.workerId) time
          some (.own (.settle k ⟨by', job, time, some outcome⟩ kind result),
            ((s.1.setJobs jobs).setTask k .finished, now), loop.finish)
        | .error error =>
          some (.own (.raised k ⟨by', job, time, some outcome⟩ error),
            (s.1.setTask k .finished, now), loop.ofError error)
      | _ => none
    else none
  | .asleep wakes =>
    if s.2 ≤ now ∧ wakes ≤ now then some (.silent, (s.1, now), { loop with point := .head })
    else none
  | _ => none

/-- One action, if it is possible. -/
def loopAct (timeText : ℚ → String) (worker : Worker) (args : RunArgs) (s : (State × ℚ) × Loop) :
    LoopAction → Option (LoopEvent × ((State × ℚ) × Loop))
  | .own now i outcome => s.2.act worker args s.1 now i outcome
  | .other action now =>
    match actAt timeText s.1 (action, now) with
    | some (e, t) =>
      if ∀ i ∈ s.2.task?, e.1.task? ≠ some i then some (.other e.1, t, s.2) else none
    | none => none

/-- A possible step of the loop is a step. -/
theorem step_loop {loop : Loop} {s : State × ℚ} {now : ℚ} {i : ℕ} {outcome : Outcome}
    (h : loop.act worker args s now i outcome = some (e, t)) :
    LoopStep timeText worker args (s, loop) e t := by
  unfold Loop.act at h
  split at h
  · rename_i hpoint
    split_ifs at h with hon hzero hreap hclock
    · obtain ⟨rfl, rfl⟩ := Prod.mk.inj (Option.some.inj h)
      exact .divides s loop hpoint hon hzero
    · obtain ⟨rfl, rfl⟩ := Prod.mk.inj (Option.some.inj h)
      exact .reaps s (_, now) loop _ hpoint hon hzero hreap
        ⟨.call s.1 (.releaseExpired now) trivial, hclock, rfl, by rintro _ ⟨⟩; rfl⟩
    · obtain ⟨rfl, rfl⟩ := Prod.mk.inj (Option.some.inj h)
      exact .skips s loop hpoint hon hzero hreap
    · obtain ⟨rfl, rfl⟩ := Prod.mk.inj (Option.some.inj h)
      exact .returns s loop hpoint hon
  · rename_i hpoint
    split_ifs at h with hready
    obtain ⟨rfl, rfl⟩ := Prod.mk.inj (Option.some.inj h)
    exact .polls s (_, now) loop i _ hpoint
      ⟨.claim s.1 i worker now hready.1, hready.2, rfl, by rintro _ ⟨⟩; rfl⟩
  · rename_i k hpoint
    split_ifs at h with hclock
    split at h
    · rename_i htask
      obtain ⟨rfl, rfl⟩ := Prod.mk.inj (Option.some.inj h)
      exact .handled s (_, now) loop k outcome hpoint
        ⟨.handled s.1 k _ _ _ outcome htask, hclock, rfl, by simp [Event.reading?]⟩
    · rename_i htask
      split at h
      · rename_i hkind
        obtain ⟨rfl, rfl⟩ := Prod.mk.inj (Option.some.inj h)
        exact .settles s (_, now) loop k _ _ _ hpoint
          ⟨.settle s.1 k _ _ _ htask rfl hkind, hclock, rfl, by simp [Event.reading?]⟩
      · rename_i hkind
        obtain ⟨rfl, rfl⟩ := Prod.mk.inj (Option.some.inj h)
        exact .raises s (_, now) loop k _ _ hpoint
          ⟨.raised s.1 k _ _ _ htask rfl hkind, hclock, rfl, by simp [Event.reading?]⟩
    · cases h
  · rename_i wakes hpoint
    split_ifs at h with hready
    obtain ⟨rfl, rfl⟩ := Prod.mk.inj (Option.some.inj h)
    exact .wakes s.1 s.2 now wakes loop hpoint hready.1 hready.2
  · cases h

/-- A possible action is a step. -/
theorem step_loopAct {action : LoopAction}
    (h : loopAct timeText worker args s action = some (e, t)) :
    LoopStep timeText worker args s e t := by
  cases action with
  | own now i outcome => exact step_loop h
  | other action now =>
    simp only [loopAct] at h
    split at h
    · rename_i e' t' hact
      split_ifs at h with hother
      obtain ⟨rfl, rfl⟩ := Prod.mk.inj (Option.some.inj h)
      have hstep := clockedStep_actAt hact
      refine .other s.1 t' s.2 e'.1 hother ?_
      rw [hstep.2.2.1]
      exact hstep
    · cases h

/-- The loop calls `release_expired`. -/
def LoopEvent.reaps : LoopEvent → Bool
  | .own (.call _) => true
  | _ => false

/-- The loop calls `run_once`. -/
def LoopEvent.polls : LoopEvent → Bool
  | .own (.claim ..) => true
  | _ => false

/-- The loop is given a job. -/
def LoopEvent.receives : LoopEvent → Bool
  | .own (.claim _ _ _ job) => job.isSome
  | _ => false

/-- The loop is through with its job. -/
def LoopEvent.finishes : LoopEvent → Bool
  | .own (.settle ..) => true
  | .own (.raised _ _ error) => (discardStale (.error error)).isOk
  | _ => false

/-- The calls of `release_expired` that come with a number of polls: one for every `reap_every`. -/
def RunArgs.reapsFor (args : RunArgs) (ticks : ℕ) : ℕ :=
  (ticks + (args.reapEvery.natAbs - 1)) / args.reapEvery.natAbs

/-- The loop had a job whose retry delay overflows, or whose handler raised an exception with a
`repr` that raises. -/
def FailsOnJob (es : List LoopEvent) (error : PyError) : Prop :=
  ∃ i delivery, .own (.raised i delivery error) ∈ es ∧
    ((error = .overflowError ∧ 1024 < delivery.job.attempts) ∨
      delivery.outcome.bind Outcome.reprError? = some error)

/-- Why a `run` raises: `reap_every` is 0, `sleep` does not take `poll_s`, or `run_once` fails. -/
def RunArgs.Raises (args : RunArgs) (es : List LoopEvent) : RunError → Prop
  | .zeroDivisionError => args.reapEvery = 0
  | .valueError => sleepError? args.pollS = some .valueError
  | .overflowError => sleepError? args.pollS = some .overflowError
  | .runOnce error => FailsOnJob es error ∧
      ∀ jobId workerId, error ≠ .staleLeaseError jobId workerId

theorem RunArgs.reapsFor_succ {ticks : ℕ} (hzero : args.reapEvery ≠ 0) :
    args.reapsFor (ticks + 1) = args.reapsFor ticks + if args.ReapsAt ticks then 1 else 0 := by
  have hpos : 0 < args.reapEvery.natAbs := Int.natAbs_pos.mpr hzero
  have hreap : args.ReapsAt ticks ↔ args.reapEvery.natAbs ∣ ticks := by
    rw [RunArgs.ReapsAt, ← Int.dvd_iff_emod_eq_zero, ← Int.natAbs_dvd, Int.natCast_dvd_natCast]
  have hnext : ticks + 1 + (args.reapEvery.natAbs - 1) =
      ticks + (args.reapEvery.natAbs - 1) + 1 := by omega
  have hsame : ticks + (args.reapEvery.natAbs - 1) + 1 = ticks + args.reapEvery.natAbs := by omega
  rw [reapsFor, hnext, Nat.succ_div, hsame]
  simp only [Nat.dvd_add_self_right, hreap, reapsFor]

theorem LoopStep.polled (h : LoopStep timeText worker args s e t) :
    (t.2.ticks : ℤ) - (if t.2.point = .polling then 1 else 0) =
      s.2.ticks - (if s.2.point = .polling then 1 else 0) + if e.polls then 1 else 0 := by
  cases h with
  | polls _ t loop i job hpoint =>
    cases job with
    | none =>
      rcases loop.ofClaim_none args i t.2 with hloop | ⟨_, -, -, hloop⟩ <;>
        simp [hloop, LoopEvent.polls, hpoint]
    | some job => simp [Loop.ofClaim, LoopEvent.polls, hpoint]
  | raises _ _ loop _ _ error hpoint =>
    rcases loop.ofError_cases error with ⟨-, hloop⟩ | ⟨-, -, hloop⟩ <;>
      simp [hloop, Loop.finish, LoopEvent.polls, hpoint]
  | other => simp [LoopEvent.polls]
  | _ => simp [Loop.tick, Loop.finish, LoopEvent.polls, *]

theorem LoopStep.reaped (h : LoopStep timeText worker args s e t) :
    (args.reapsFor t.2.ticks : ℤ) = args.reapsFor s.2.ticks + if e.reaps then 1 else 0 := by
  cases h with
  | skips _ _ _ _ hzero hreap => simp [Loop.tick, args.reapsFor_succ hzero, hreap, LoopEvent.reaps]
  | reaps _ _ _ _ _ _ hzero hreap =>
    simp [Loop.tick, args.reapsFor_succ hzero, hreap, LoopEvent.reaps]
  | polls _ t loop i job =>
    cases job with
    | none =>
      rcases loop.ofClaim_none args i t.2 with hloop | ⟨_, -, -, hloop⟩ <;>
        simp [hloop, LoopEvent.reaps]
    | some job => simp [Loop.ofClaim, LoopEvent.reaps]
  | raises _ _ loop _ _ error =>
    rcases loop.ofError_cases error with ⟨-, hloop⟩ | ⟨-, -, hloop⟩ <;>
      simp [hloop, Loop.finish, LoopEvent.reaps]
  | _ => simp [Loop.finish, LoopEvent.reaps]

theorem LoopStep.finished (h : LoopStep timeText worker args s e t) :
    (t.2.done : ℤ) = s.2.done + if e.finishes then 1 else 0 := by
  cases h with
  | polls _ t loop i job =>
    cases job with
    | none =>
      rcases loop.ofClaim_none args i t.2 with hloop | ⟨_, -, -, hloop⟩ <;>
        simp [hloop, LoopEvent.finishes]
    | some job => simp [Loop.ofClaim, LoopEvent.finishes]
  | raises _ _ loop _ _ error =>
    rcases loop.ofError_cases error with ⟨hstale, hloop⟩ | ⟨hother, -, hloop⟩
    · simp [hloop, Loop.finish, LoopEvent.finishes, hstale]
    · simp [hloop, LoopEvent.finishes, hother]
  | _ => simp [Loop.tick, Loop.finish, LoopEvent.finishes]

/-! ### How a `run` ends -/

theorem raised_step {s t : State} {i : ℕ} {delivery : Delivery} {error : PyError}
    (h : Step timeText s (.raised i delivery error) t) :
    (error = .overflowError ∧ 1024 < delivery.job.attempts) ∨
      delivery.outcome.bind Outcome.reprError? = some error := by
  cases h with
  | raised _ _ outcome _ _ houtcome hkind =>
    rw [houtcome]
    exact settleKind_error hkind

/-- A loop that has raised had a reason. -/
theorem LoopStep.raised (h : LoopStep timeText worker args s e t)
    (hs : ∀ error, s.2.point = .raised error → args.Raises es error) :
    ∀ error, t.2.point = .raised error → args.Raises (es ++ [e]) error := by
  have hkeep : ∀ error, s.2.point = .raised error → args.Raises (es ++ [e]) error := by
    intro error herror
    cases error with
    | runOnce error =>
      obtain ⟨⟨i, delivery, hmem, hreason⟩, hother⟩ := hs _ herror
      exact ⟨⟨i, delivery, List.mem_append_left _ hmem, hreason⟩, hother⟩
    | zeroDivisionError => exact hs _ herror
    | valueError => exact hs _ herror
    | overflowError => exact hs _ herror
  cases h with
  | divides _ _ _ _ hzero =>
    rintro _ ⟨⟩
    exact hzero
  | polls _ t loop i job =>
    cases job with
    | none =>
      rcases loop.ofClaim_none args i t.2 with hloop | ⟨_, hsleep, rfl | rfl, hloop⟩
      · simp [hloop]
      · rw [hloop]
        rintro _ ⟨⟩
        exact hsleep
      · rw [hloop]
        rintro _ ⟨⟩
        exact hsleep
    | some job => simp [Loop.ofClaim]
  | raises _ _ loop i delivery error _ hstep =>
    rcases loop.ofError_cases error with ⟨-, hloop⟩ | ⟨-, hother, hloop⟩
    · simp [hloop, Loop.finish]
    · rw [hloop]
      rintro _ ⟨⟩
      exact ⟨⟨i, delivery, by simp, raised_step hstep.1⟩, hother⟩
  | handled => exact hkeep
  | other => exact hkeep
  | _ => simp [Loop.tick, Loop.finish]

end Relay.System
