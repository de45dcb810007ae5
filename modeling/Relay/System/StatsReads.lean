import Relay.System.Execution
import Relay.Queue.Counts

/-!
# The two reads of `stats`

`stats` is two `SELECT`s and there is no transaction around them, so other calls may commit between
one and the other. `StatsStep` is a call of `stats` among the steps of the system, and
`statsRun_iff` says what its runs are: the counts per status are those of one committed state and
the ready count that of a later one. So the answer is not that of a single state in general
(`enqueueBetween_tears_stats`). `stats_reads_two_states` says what it is, by how much it may be off
and which steps between the reads leave it that of a single state.
-/

set_option autoImplicit false
set_option relaxedAutoImplicit false

namespace Relay.System

open Foundations Store Queue

/-- Where a call of `stats` stands: at its start, after the loop over the rows of its first
statement, or at its end. -/
inductive Reading
  | started
  | counted (counts : Status → ℕ)
  | returned (answer : Stats)

/-- One entry of the history while a call of `stats` is in progress: a step of another call or one
of its two statements. -/
inductive StatsEvent
  | other (e : Event)
  | selectCounts
  | selectReady
deriving DecidableEq

/-- What the two statements of `stats` do on a committed jobs table. -/
inductive Read (now : ℚ) (jobs : Jobs ℚ) : Reading → StatsEvent → Reading → Prop
  -- the `SELECT` has no `ORDER BY`
  | selectCounts (groups : List (Status × ℕ)) (hgroups : groups.Perm (groupedCounts jobs)) :
      Read now jobs .started .selectCounts (.counted (countsOf groups))
  | selectReady (counts : Status → ℕ) :
      Read now jobs (.counted counts) .selectReady
        (.returned (.ofReads counts (readyCount jobs now)))

/-- One step of the system with a call of `stats` in progress. -/
inductive StatsStep (timeText : ℚ → String) (now : ℚ) :
    State × Reading → StatsEvent → State × Reading → Prop
  | other {s t : State} {e : Event} (reading : Reading) (hstep : Step timeText s e t) :
      StatsStep timeText now (s, reading) (.other e) (t, reading)
  | read {event : StatsEvent} {reading reading' : Reading} (s : State)
      (hread : Read now s.db.jobs reading event reading') :
      StatsStep timeText now (s, reading) event (s, reading')

variable {timeText : ℚ → String} {now : ℚ} {s t : State} {reading reading' : Reading}
  {events : List StatsEvent}

/-! ### The runs of a call -/

theorem run_other {es : List Event} (h : Run (Step timeText) s es t) (reading : Reading) :
    Run (StatsStep timeText now) (s, reading) (es.map .other) (t, reading) := by
  induction h with
  | nil => exact .nil _
  | cons head _ ih => exact .cons (.other reading head) ih

/-- A run has steps of other calls only, or comes to a statement of `stats` after such steps. -/
theorem run_until_read (h : Run (StatsStep timeText now) (s, reading) events (t, reading')) :
    (∃ es : List Event, events = es.map .other ∧ Run (Step timeText) s es t ∧ reading' = reading) ∨
    ∃ (es : List Event) (u : State) (event : StatsEvent) (next : Reading) (rest : List StatsEvent),
      events = es.map .other ++ event :: rest ∧ Run (Step timeText) s es u ∧
        Read now u.db.jobs reading event next ∧
        Run (StatsStep timeText now) (u, next) rest (t, reading') := by
  induction events generalizing s with
  | nil =>
    obtain ⟨rfl, rfl⟩ := Prod.mk.inj (Run.nil_iff.mp h)
    exact .inl ⟨[], rfl, .nil _, rfl⟩
  | cons event events ih =>
    obtain ⟨_, head, tail⟩ := Run.cons_iff.mp h
    cases head with
    | @other _ _ e _ hstep =>
      rcases ih tail with ⟨es, rfl, hes, hreading⟩ | ⟨es, u, event, next, rest, rfl, hes, hread⟩
      · exact .inl ⟨e :: es, rfl, .cons hstep hes, hreading⟩
      · exact .inr ⟨e :: es, u, event, next, rest, rfl, .cons hstep hes, hread⟩
    | @read _ _ next _ hread => exact .inr ⟨[], s, event, next, events, rfl, .nil _, hread, tail⟩

/-- A call of `stats` reads the counts per status in one state of its run and the ready count in a
later one. -/
theorem statsRun_iff {answer : Stats} :
    Run (StatsStep timeText now) (s, .started) events (t, .returned answer) ↔
      ∃ (before between after : List Event) (first second : State),
        events = before.map .other ++
          .selectCounts :: (between.map .other ++ .selectReady :: after.map .other) ∧
        Run (Step timeText) s before first ∧ Run (Step timeText) first between second ∧
        Run (Step timeText) second after t ∧
        answer = .ofReads (statusCount first.db.jobs) (readyCount second.db.jobs now) := by
  constructor
  · intro h
    rcases run_until_read h with ⟨_, _, _, hstarted⟩ | ⟨before, first, _, _, _, rfl, hbefore,
      ⟨groups, hgroups⟩, h⟩
    · cases hstarted
    rcases run_until_read h with ⟨_, _, _, hcounted⟩ | ⟨between, second, _, _, _, rfl, hbetween,
      ⟨⟩, h⟩
    · cases hcounted
    rcases run_until_read h with ⟨after, rfl, hafter, hreturned⟩ | ⟨_, _, _, _, _, _, _, ⟨⟩, _⟩
    cases hreturned
    rw [countsOf_groupedCounts hgroups]
    exact ⟨before, between, after, first, second, rfl, hbefore, hbetween, hafter, rfl⟩
  · rintro ⟨before, between, after, first, second, rfl, hbefore, hbetween, hafter, rfl⟩
    rw [← countsOf_groupedCounts (.refl (groupedCounts first.db.jobs))]
    refine (run_other hbefore _).append (.cons (.read first (.selectCounts _ (.refl _))) ?_)
    exact (run_other hbetween _).append
      (.cons (.read second (.selectReady _)) (run_other hafter _))

/-! ### The answer -/

/-- The jobs that the steps of a history may have put into the queue. -/
def arrivals (es : List Event) : Finset ℕ :=
  ((es.filterMap Event.queue?).flatMap Queue.Event.arrivals).toFinset

/-- `stats` reads two committed states. Whatever other calls do while it is in progress, the counts
per status are those of the state of its first read and sum to the number of jobs there, and `ready`
is the number of queued jobs that are due in the state of its second read. It may exceed `queued`,
by no more than the number of jobs that have come into the queue between the reads. When the steps
between them first move no job, and from some point on move none into or out of the ready ones, the
answer is that of the state at this point, and `ready` is at most `queued`. -/
theorem stats_reads_two_states {answer : Stats}
    (hcall : Run (StatsStep timeText now) (s, .started) events (t, .returned answer)) :
    ∃ (before between after : List Event) (first second : State),
      events = before.map .other ++
        .selectCounts :: (between.map .other ++ .selectReady :: after.map .other) ∧
      Run (Step timeText) s before first ∧ Run (Step timeText) first between second ∧
      Run (Step timeText) second after t ∧
      answer = .ofReads (statusCount first.db.jobs) (readyCount second.db.jobs now) ∧
      answer.queued + answer.leased + answer.done + answer.dead = first.db.jobs.rows.length ∧
      answer.ready ≤ statusCount second.db.jobs .queued ∧
      answer.ready ≤ answer.queued + (arrivals between).card ∧
      ∀ quiet late : List Event, between = quiet ++ late →
        (∀ entry ∈ quiet.filterMap Event.queue?, ∀ j, ¬ entry.Moves j) →
        (∀ entry ∈ late.filterMap Event.queue?, ∀ j, ¬ entry.MovesReady now j) →
        answer.ready ≤ answer.queued ∧ ∃ u, Run (Step timeText) first quiet u ∧
          Run (Step timeText) u late second ∧ answer = stats u.db.jobs now := by
  obtain ⟨before, between, after, first, second, hevents, hbefore, hbetween, hafter, rfl⟩ :=
    statsRun_iff.mp hcall
  have hready := readyCount_le second.db.jobs now
  refine ⟨before, between, after, first, second, hevents, hbefore, hbetween, hafter, rfl,
    sum_statusCount first.db.jobs, hready, hready.trans (queued_le_of_run (run_queue hbetween)), ?_⟩
  rintro quiet late rfl hquiet hlate
  obtain ⟨u, hleft, hright⟩ := Run.append_iff.mp hbetween
  have hsingle : Stats.ofReads (statusCount first.db.jobs) (readyCount second.db.jobs now) =
      stats u.db.jobs now := by
    refine ofReads_eq_stats (fun status ↦ ?_) ?_
    · exact statusCount_eq_of_run (run_queue hleft) hquiet status
    · exact readyCount_eq_of_run (run_queue hright) hlate
  refine ⟨?_, u, hleft, hright, hsingle⟩
  rw [hsingle]
  exact readyCount_le u.db.jobs now

/-- A job that is ready at time 0. -/
def email : EnqueueArgs ℚ := ⟨"email", "null", 0, 5, 0, none, 0⟩

theorem stats_reads_two_states_secondEmail :
    ∃ (between : List Event) (first second : State),
      Run (Step wholeSeconds) first between second ∧ statusCount first.db.jobs .queued = 1 ∧
        first.db.jobs.rows.length = 1 ∧ readyCount second.db.jobs 0 = 2 ∧
        2 ≤ 1 + (arrivals between).card := by
  have hfirst := run_runActions wholeSeconds (.start .empty) [.enqueue 0 email]
  have hbetween := run_runActions wholeSeconds
    (runActions wholeSeconds (.start .empty) [.enqueue 0 email]).2 [.enqueue 1 email]
  have hcall : Run (StatsStep wholeSeconds 0) (.start .empty, .started) _
      (_, .returned ⟨1, 0, 0, 0, 2⟩) :=
    statsRun_iff.mpr ⟨_, _, [], _, _, rfl, hfirst, hbetween, .nil _, by decide +kernel⟩
  obtain ⟨-, between, -, first, second, -, -, hrun, -, hanswer, hsum, -, hready, -⟩ :=
    stats_reads_two_states hcall
  exact ⟨between, first, second, hrun, (congrArg Stats.queued hanswer).symm, hsum.symm,
    (congrArg Stats.ready hanswer).symm, hready⟩

/-- A job enqueued between the two reads is ready and not queued in the answer, as in no state. -/
theorem enqueueBetween_tears_stats :
    Run (StatsStep wholeSeconds 0) (.start .empty, .started)
      [.selectCounts, .other (.enqueue 0 email (some 1)), .selectReady]
      ((runActions wholeSeconds (.start .empty) [.enqueue 0 email]).2,
        .returned ⟨0, 0, 0, 0, 1⟩) ∧
    ∀ jobs : Jobs ℚ, stats jobs 0 ≠ ⟨0, 0, 0, 0, 1⟩ := by
  constructor
  · have hhistory : (runActions wholeSeconds (.start .empty) [.enqueue 0 email]).1 =
        [.enqueue 0 email (some 1)] := by
      decide +kernel
    have hbetween := run_runActions wholeSeconds (.start .empty) [.enqueue 0 email]
    rw [hhistory] at hbetween
    exact statsRun_iff.mpr
      ⟨[], _, [], _, _, rfl, .nil _, hbetween, .nil _, by decide +kernel⟩
  · intro jobs hstats
    have hready := readyCount_le jobs 0
    rw [show readyCount jobs 0 = 1 from congrArg Stats.ready hstats,
      show statusCount jobs .queued = 0 from congrArg Stats.queued hstats] at hready
    exact absurd hready (by decide)

end Relay.System
