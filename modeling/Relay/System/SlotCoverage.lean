import Relay.System.ScheduleGrid
import Relay.Queue.RedoLog
import Relay.Foundations.GridWalk

/-!
# Which slots a schedule fires

A schedule that was made once is a walker on the grid of its first run, and the ticks that find it
enabled are the times of the walk (`Seen`): in a run of whole calls its jobs are, in their order,
those of the slots the walker leaves, each made at the time at which it leaves it, whatever the
clocks of the ticks and whatever else is done with the jobs and the other schedules, as long as no
producer enqueues under the slot keys (`schedule_walks`). So where the clock does not go back, a
slot has a job exactly if a tick came in the interval before it, or it is the first, and a tick came
at or after it; and none is missed where a tick that finds the schedule enabled comes in every
interval (`slots_covered`).
-/

set_option autoImplicit false
set_option relaxedAutoImplicit false

namespace Relay.System

open Foundations Store Queue Scheduler Workers

/-- An `enqueue` of a producer under a key that could be one of a schedule's slots. -/
def Call.TakesKey (name : String) : Call → Prop
  | .statement (.insert args) => ∃ key ∈ args.idempotencyKey, IsSlotKey name key
  | _ => False

/-- What a schedule has seen since it was made: whether it is enabled, and the times of the ticks
that found it so. -/
structure Seen where
  enabled : Bool := true
  ticks : List ℚ := []
deriving DecidableEq, Repr

/-- What a schedule sees of a call. -/
def Seen.next (name : String) (seen : Seen) : Call → Seen
  | .setEnabled name' enabled => if name' = name then { seen with enabled := enabled } else seen
  | .tick now => if seen.enabled then { seen with ticks := seen.ticks ++ [now] } else seen
  | _ => seen

/-- What a schedule has seen of the calls since it was made. -/
def seen (name : String) (calls : List Call) : Seen := calls.foldl (Seen.next name) {}

/-- The slot where a schedule is after the calls since it was made. -/
def slotAfter (args : AddArgs) (calls : List Call) : ℚ :=
  (seen args.name calls).ticks.foldl (Grid.pass args.intervalS) args.row.nextRun

/-- What producers and ticks fix of the jobs of a schedule, in their order. -/
def slotTickets (name : String) (jobs : Jobs ℚ) : List (Ticket ℚ) :=
  (slotJobs name jobs).map fun job ↦ (withoutId job).ticket

/-- The job a tick makes for a slot of a schedule. -/
def slotTicket (timeText : ℚ → String) (args : AddArgs) (slot now : ℚ) : Ticket ℚ :=
  (slotJob timeText now (moveTo slot args.row)).ticket

/-- The schedule is where the walk is, and its jobs are those of the slots the walk has left. -/
structure Walks (timeText : ℚ → String) (args : AddArgs) (calls : List Call) (db : Database) :
    Prop where
  row : db.schedules.row? args.name =
    some (enable (seen args.name calls).enabled (moveTo (slotAfter args calls) args.row))
  jobs : slotTickets args.name db.jobs =
    (Grid.walk args.intervalS args.row.nextRun (seen args.name calls).ticks).map fun left ↦
      slotTicket timeText args left.1 left.2

variable {timeText : ℚ → String} {db later : Database} {call : Call} {calls : List Call}
  {name : String} {args : AddArgs}

theorem Call.TakesSlot.takesKey (noAt : ∀ time, '@' ∉ (timeText time).toList)
    (h : call.TakesSlot timeText name) : call.TakesKey name := by
  cases call with
  | statement statement =>
    cases statement with
    | insert args =>
      obtain ⟨slot, hkey⟩ := h
      exact ⟨_, hkey, (isSlotKey_slotKey noAt).mpr rfl⟩
    | _ => exact h
  | _ => exact h

/-! ### The jobs of a schedule -/

/-- The jobs of a schedule are known by what producers and ticks fix of the jobs. -/
theorem slotTickets_eq (name : String) (jobs : Jobs ℚ) : slotTickets name jobs =
    ((jobs.rows.map JobRow.ticket).filter fun ticket ↦
      ∃ key ∈ ticket.idempotencyKey, IsSlotKey name key).map fun ticket ↦
        { ticket with id := 0 } := by
  rw [List.filter_map, List.map_map]
  rfl

/-- A statement that is not an `enqueue` under a key of the schedule adds no job to it. -/
theorem slotTickets_perform (statement : Statement ℚ)
    (hkeys : ¬ (Call.statement statement).TakesKey name) (jobs : Jobs ℚ) :
    slotTickets name (perform jobs statement).1 = slotTickets name jobs := by
  have hstep : Queue.Step jobs ⟨statement, (perform jobs statement).2⟩
    (perform jobs statement).1 := rfl
  have hnone : ((Queue.Event.redo ⟨statement, (perform jobs statement).2⟩).added.map
      JobRow.ticket).filter (fun ticket ↦ ∃ key ∈ ticket.idempotencyKey, IsSlotKey name key) =
      [] := by
    rw [List.filter_eq_nil_iff]
    intro ticket hticket htakes
    obtain ⟨row, hrow, rfl⟩ := List.mem_map.mp hticket
    obtain ⟨args, id, hentry, rfl⟩ := mem_added_redo hrow
    obtain rfl := congrArg Queue.Event.statement hentry
    have hkey : ∃ key ∈ args.idempotencyKey, IsSlotKey name key := of_decide_eq_true htakes
    exact hkeys hkey
  rw [slotTickets_eq, slotTickets_eq, hstep.rows_eq, tickets_apply, List.filter_append, hnone,
    List.append_nil]

/-- A whole tick adds to the jobs of a schedule the one of its slot, if it is due and the slot has
no job. -/
theorem CallStep.slotTickets_of_tick (noAt : ∀ time, '@' ∉ (timeText time).toList) {now : ℚ}
    (h : CallStep timeText db (.tick now) later) (name : String) :
    slotTickets name later.jobs = slotTickets name db.jobs ++
      ((db.schedules.row? name).filter fun row ↦
        Due now row ∧ ¬ HasKey db.jobs (slotKey timeText row.name row.nextRun)).toList.map
          fun row ↦ (slotJob timeText now row).ticket := by
  obtain ⟨new, hjobs, hnew⟩ := h.slotJobs_of_tick noAt name
  rw [slotTickets, hjobs, List.map_append, ← slotTickets]
  refine congrArg _ ?_
  calc new.map (fun job ↦ (withoutId job).ticket)
      = (new.map withoutId).map JobRow.ticket := by rw [List.map_map]; rfl
    _ = _ := by rw [hnew, List.map_map]; rfl

/-- A call that is no tick adds no job to a schedule. -/
theorem CallStep.slotTickets_of_no_tick (h : CallStep timeText db call later)
    (hkeys : ¬ call.TakesKey name) (hcall : ∀ now, call ≠ .tick now) :
    slotTickets name later.jobs = slotTickets name db.jobs := by
  cases h with
  | statement statement => exact slotTickets_perform statement hkeys db.jobs
  | tick now => exact absurd rfl (hcall now)
  | _ => rfl

/-! ### The walk -/

theorem seen_append (name : String) (calls : List Call) (call : Call) :
    seen name (calls ++ [call]) = (seen name calls).next name call := List.foldl_concat ..

/-- A tick that finds the schedule enabled is the next time of the walk. -/
theorem walk_seen_tick (args : AddArgs) {calls : List Call}
    (henabled : (seen args.name calls).enabled = true) (now : ℚ) :
    Grid.walk args.intervalS args.row.nextRun (seen args.name (calls ++ [.tick now])).ticks =
      Grid.walk args.intervalS args.row.nextRun (seen args.name calls).ticks ++
        if slotAfter args calls ≤ now then [(slotAfter args calls, now)] else [] := by
  rw [seen_append, Seen.next, if_pos henabled, Grid.walk_append]
  exact congrArg _ (List.append_nil _)

/-- The slot of a schedule depends on the ticks alone. -/
theorem slotAfter_of_ticks {calls' : List Call}
    (h : (seen args.name calls').ticks = (seen args.name calls).ticks) :
    slotAfter args calls' = slotAfter args calls :=
  congrArg (List.foldl (Grid.pass args.intervalS) args.row.nextRun) h

theorem slotAfter_tick (args : AddArgs) {calls : List Call}
    (henabled : (seen args.name calls).enabled = true) (now : ℚ) :
    slotAfter args (calls ++ [.tick now]) =
      Grid.pass args.intervalS (slotAfter args calls) now := by
  rw [slotAfter, seen_append, Seen.next, if_pos henabled]
  exact List.foldl_concat ..

/-- A whole tick fires a schedule on its grid if it is due, and leaves it and its jobs alone if it
is not. -/
theorem OnGrid.tick (htext : IsTimeText timeText) {row : ScheduleRow}
    (h : OnGrid timeText args db row) {now : ℚ} (hcall : CallStep timeText db (.tick now) later) :
    later.schedules.row? args.name = some (if Due now row then fired now row else row) ∧
      slotTickets args.name later.jobs = slotTickets args.name db.jobs ++
        if Due now row then [(slotJob timeText now row).ticket] else [] := by
  have hafter := hcall.row? htext.noAt args.name
  have hjobs := hcall.slotTickets_of_tick htext.noAt args.name
  rw [h.found] at hafter hjobs
  refine ⟨hafter, hjobs.trans (congrArg _ ?_)⟩
  by_cases hdue : Due now row
  · have hname : row.name = args.name := Schedules.name_of_row? h.found
    have hfree : ¬ HasKey db.jobs (slotKey timeText row.name row.nextRun) :=
      fun hkey ↦ lt_irrefl _ (h.past _ (hname ▸ hkey))
    rw [if_pos hdue, Option.filter_some_pos (by simpa using ⟨hdue, hfree⟩)]
    rfl
  · rw [if_neg hdue, Option.filter_some_neg (by simp [hdue])]
    rfl

/-- A tick takes the walk a step further if it finds the schedule enabled. -/
theorem Walks.tick (htext : IsTimeText timeText) (h : Walks timeText args calls db)
    {row : ScheduleRow} (hgrid : OnGrid timeText args db row) {now : ℚ}
    (hcall : CallStep timeText db (.tick now) later) :
    Walks timeText args (calls ++ [.tick now]) later := by
  obtain ⟨hrow, hjobs⟩ := hgrid.tick htext hcall
  obtain rfl := Option.mem_unique h.row hgrid.found
  rw [h.jobs] at hjobs
  by_cases henabled : (seen args.name calls).enabled = true
  · have hdue : Due now (enable (seen args.name calls).enabled
        (moveTo (slotAfter args calls) args.row)) ↔ slotAfter args calls ≤ now :=
      and_iff_right henabled
    have hstill : (seen args.name (calls ++ [.tick now])).enabled =
        (seen args.name calls).enabled := by
      rw [seen_append, Seen.next, if_pos henabled]
    refine ⟨?_, ?_⟩
    · rw [hrow, hstill, slotAfter_tick args henabled, Grid.pass]
      simp only [hdue]
      split_ifs <;> rfl
    · rw [hjobs, walk_seen_tick args henabled, List.map_append]
      simp only [hdue]
      split_ifs <;> rfl
  · have hdue : ¬ Due now (enable (seen args.name calls).enabled
        (moveTo (slotAfter args calls) args.row)) := fun hdue ↦ henabled hdue.1
    have hsame : seen args.name (calls ++ [.tick now]) = seen args.name calls := by
      rw [seen_append, Seen.next, if_neg henabled]
    rw [if_neg hdue] at hrow hjobs
    refine ⟨?_, ?_⟩
    · rw [hrow, hsame, slotAfter_of_ticks (congrArg Seen.ticks hsame)]
    · rw [hjobs, hsame, List.append_nil]

/-- Every other call that does not replace the schedule leaves the walk where it is. -/
theorem Walks.no_tick (noAt : ∀ time, '@' ∉ (timeText time).toList)
    (h : Walks timeText args calls db) (hcall : CallStep timeText db call later)
    (hkept : ¬ call.Replaces args.name) (hkeys : ¬ call.TakesKey args.name)
    (hother : ∀ now, call ≠ .tick now) : Walks timeText args (calls ++ [call]) later := by
  have hticks : (seen args.name (calls ++ [call])).ticks = (seen args.name calls).ticks := by
    rw [seen_append]
    cases call with
    | setEnabled name' enabled => exact (apply_ite Seen.ticks ..).trans (ite_self _)
    | tick now => exact absurd rfl (hother now)
    | _ => rfl
  refine ⟨?_, ?_⟩
  · rw [hcall.row? noAt, h.row, slotAfter_of_ticks hticks, seen_append]
    cases call with
    | add args' => exact if_neg hkept
    | remove name' => exact if_neg hkept
    | setEnabled name' enabled =>
      by_cases hname : name' = args.name
      · simp only [Call.scheduleAfter, Seen.next, if_pos hname]
        rfl
      · simp only [Call.scheduleAfter, Seen.next, if_neg hname]
    | tick now => exact absurd rfl (hother now)
    | statement statement => rfl
  · rw [hcall.slotTickets_of_no_tick hkeys hother, h.jobs, hticks]

theorem Walks.step (htext : IsTimeText timeText) (h : Walks timeText args calls db)
    {row : ScheduleRow} (hgrid : OnGrid timeText args db row)
    (hcall : CallStep timeText db call later) (hkept : ¬ call.Replaces args.name)
    (hkeys : ¬ call.TakesKey args.name) : Walks timeText args (calls ++ [call]) later := by
  cases call with
  | tick now => exact h.tick htext hgrid hcall
  | _ => exact h.no_tick htext.noAt hcall hkept hkeys (by simp)

/-! ### Runs -/

/-- Until the first `add` of its name a schedule has no jobs. -/
theorem slotTickets_before_add (htext : IsTimeText timeText)
    (hrun : Run (CallStep timeText) .empty calls db)
    (hcalls : ∀ call ∈ calls, ¬ call.Adds name ∧ ¬ call.TakesKey name) :
    db.schedules.row? name = none ∧ slotTickets name db.jobs = [] := by
  refine hrun.invariant_of_labels _ (fun db ↦ db.schedules.row? name = none ∧
    slotTickets name db.jobs = []) ?_ hcalls ⟨rfl, rfl⟩
  rintro db call later ⟨hadds, hkeys⟩ ⟨hrow, hnone⟩ hcall
  have hafter := hcall.row? htext.noAt name
  rw [hrow, scheduleAfter_none hadds] at hafter
  refine ⟨hafter, ?_⟩
  cases call with
  | tick now =>
    rw [hcall.slotTickets_of_tick htext.noAt, hnone, hrow]
    rfl
  | _ => exact (hcall.slotTickets_of_no_tick hkeys (by simp)).trans hnone

/-- The first `add` of a name puts the schedule at the start of its grid. -/
theorem onGrid_of_add (htext : IsTimeText timeText) (check : 0 < args.intervalS)
    (hrun : Run (CallStep timeText) .empty calls db)
    (hcalls : ∀ call ∈ calls, ¬ call.Adds args.name ∧ ¬ call.TakesKey args.name)
    (hadd : CallStep timeText db (.add args) later) :
    OnGrid timeText args later args.row ∧ Walks timeText args [] later := by
  have hfree := (nothing_before_add htext hrun fun call hcall ↦
    (hcalls call hcall).imp_right fun hkeys hslot ↦ hkeys (hslot.takesKey htext.noAt)).2
  have hfound := hadd.row? htext.noAt args.name
  rw [Call.scheduleAfter, if_pos ⟨rfl, check⟩] at hfound
  have hjobs : slotTickets args.name later.jobs = [] :=
    (hadd.slotTickets_of_no_tick id (by simp)).trans (slotTickets_before_add htext hrun hcalls).2
  refine ⟨⟨hfound, rfl, rfl, rfl, Grid.start_mem_points _ _, fun slot hkey ↦ ?_⟩, hfound, hjobs⟩
  cases hadd
  exact absurd hkey (hfree slot)

/-- After its first `add`, a schedule walks its grid, as long as no call replaces it and no producer
takes its slot keys. -/
theorem walks_of_run (htext : IsTimeText timeText) {before after : List Call}
    (check : 0 < args.intervalS)
    (hrun : Run (CallStep timeText) .empty (before ++ .add args :: after) db)
    (hfirst : ∀ call ∈ before, ¬ call.Adds args.name ∧ ¬ call.TakesKey args.name)
    (hkept : ∀ call ∈ after, ¬ call.Replaces args.name ∧ ¬ call.TakesKey args.name) :
    Walks timeText args after db := by
  obtain ⟨old, new, hbefore, hadd, hafter⟩ := hrun.at_label
  obtain ⟨hgrid, hwalks⟩ := onGrid_of_add htext check hbefore hfirst hadd
  have hboth : ∃ row, OnGrid timeText args db row ∧ Walks timeText args after db := by
    refine hafter.history (motive := fun calls db ↦
      (∀ call ∈ calls, ¬ call.Replaces args.name ∧ ¬ call.TakesKey args.name) →
      ∃ row, OnGrid timeText args db row ∧ Walks timeText args calls db) ?_ ?_ hkept
    · exact fun _ ↦ ⟨_, hgrid, hwalks⟩
    · rintro calls db call later - ih hcall hcalls
      obtain ⟨row, hgrid, hwalks⟩ := ih fun call hmem ↦ hcalls call (List.mem_append_left _ hmem)
      obtain ⟨hreplaces, hkeys⟩ :=
        hcalls call (List.mem_append_right _ (List.mem_singleton_self call))
      obtain ⟨row', hgrid', -⟩ := hgrid.step htext hcall hreplaces fun hslot ↦
        hkeys (hslot.takesKey htext.noAt)
      exact ⟨row', hgrid', hwalks.step htext hgrid hcall hreplaces hkeys⟩
  obtain ⟨-, -, hwalks⟩ := hboth
  exact hwalks

/-- A schedule is a walker on its grid. In every run of whole calls in which the schedule is made by
the first `add` of its name and not replaced, and no producer enqueues under its keys, its row is
where the walk of the ticks that found it enabled ends; and its jobs are, in the order in which they
were made, those of the slots which this walk leaves, with all that the schedule and the tick fix of
them. The clocks of the ticks may go back. Assumed of the text of a time: it determines the time and
contains no `@`. -/
theorem schedule_walks (htext : IsTimeText timeText) {before after : List Call}
    (check : 0 < args.intervalS)
    (hrun : Run (CallStep timeText) .empty (before ++ .add args :: after) db)
    (hfirst : ∀ call ∈ before, ¬ call.Adds args.name ∧ ¬ call.TakesKey args.name)
    (hkept : ∀ call ∈ after, ¬ call.Replaces args.name ∧ ¬ call.TakesKey args.name) :
    Walks timeText args after db :=
  walks_of_run htext check hrun hfirst hkept

theorem schedule_walks_reenabledCalls :
    Walks exactSeconds reportArgs reenabledCalls
      ((Call.remove "report" :: .add reportArgs :: reenabledCalls).foldl (doCall exactSeconds)
        .empty) := by
  have check : 0 < reportArgs.intervalS := by decide +kernel
  have hrun := run_doCalls exactSeconds .empty
    ([.remove "report"] ++ .add reportArgs :: reenabledCalls)
  exact schedule_walks isTimeText_exactSeconds check hrun
    (by simp [Call.Adds, Call.TakesKey])
    (by simp [reenabledCalls, Call.Replaces, Call.Adds, Call.TakesKey])

/-- The ticks of the example at 10 and 75 fire the slots 0 and 20: the one at 3 comes too early, and
the one at 40 while the schedule is disabled. -/
example : Grid.walk reportArgs.intervalS reportArgs.row.nextRun
    (seen "report" reenabledCalls).ticks = [(0, 10), (20, 75)] := by decide +kernel

/-! ### Slots with and without a job -/

/-- A slot has a job when the walk has left it. -/
theorem Walks.hasKey_iff (htext : IsTimeText timeText) (h : Walks timeText args calls db)
    {slot : ℚ} : HasKey db.jobs (slotKey timeText args.name slot) ↔
      slot ∈ (Grid.walk args.intervalS args.row.nextRun (seen args.name calls).ticks).map
        Prod.fst := by
  have hkeys : HasKey db.jobs (slotKey timeText args.name slot) ↔
      some (slotKey timeText args.name slot) ∈
        (slotTickets args.name db.jobs).map Ticket.idempotencyKey := by
    simp only [slotTickets, List.map_map, List.mem_map, slotJobs, List.mem_filter,
      decide_eq_true_eq]
    constructor
    · rintro ⟨job, hjob, hkey⟩
      exact ⟨job, ⟨hjob, _, hkey, (isSlotKey_slotKey htext.noAt).mpr rfl⟩, hkey⟩
    · rintro ⟨job, ⟨hjob, -⟩, hkey⟩
      exact ⟨job, hjob, hkey⟩
  rw [hkeys, h.jobs, List.map_map]
  simp only [List.mem_map]
  constructor
  · rintro ⟨left, hleft, hkey⟩
    exact ⟨left, hleft, ((slotKey_inj htext).mp (Option.some.inj hkey)).2⟩
  · rintro ⟨left, hleft, rfl⟩
    exact ⟨left, hleft, rfl⟩

/-- Which slots are missed. In a run as before in which the clock does not go back from one tick
that finds the schedule enabled to the next: a slot has a job exactly if it is the first or a tick
came in the interval before it, and a tick came at or after it. So no slot is missed up to the last
tick when there is never more than an interval from one tick to the next, and from a time before the
first run to the first tick. -/
theorem slots_covered (htext : IsTimeText timeText) {before after : List Call}
    (check : 0 < args.intervalS)
    (hrun : Run (CallStep timeText) .empty (before ++ .add args :: after) db)
    (hfirst : ∀ call ∈ before, ¬ call.Adds args.name ∧ ¬ call.TakesKey args.name)
    (hkept : ∀ call ∈ after, ¬ call.Replaces args.name ∧ ¬ call.TakesKey args.name)
    (horder : (seen args.name after).ticks.Pairwise (· ≤ ·)) :
    ∀ slot ∈ Grid.points args.row.nextRun args.intervalS,
      (HasKey db.jobs (slotKey timeText args.name slot) ↔
        (slot = args.row.nextRun ∨ ∃ now ∈ (seen args.name after).ticks,
          slot - args.intervalS ≤ now ∧ now < slot) ∧
        ∃ now ∈ (seen args.name after).ticks, slot ≤ now) ∧
      ∀ early, early < args.row.nextRun →
        (early :: (seen args.name after).ticks).IsChain (fun a b ↦ b ≤ a + args.intervalS) →
        (∃ now ∈ (seen args.name after).ticks, slot ≤ now) →
          HasKey db.jobs (slotKey timeText args.name slot) := by
  have hwalks := walks_of_run htext check hrun hfirst hkept
  intro slot hslot
  rw [hwalks.hasKey_iff htext]
  exact ⟨Grid.mem_walk_iff check horder hslot, fun early hearly hchain hlast ↦
    Grid.mem_walk_of_isChain check horder hearly hchain hslot hlast⟩

/-- Ticks that come at least once in ten seconds, and one more while the schedule is disabled. -/
def steadyCalls : List Call :=
  [.tick 4, .tick 14, .setEnabled "report" false, .tick 18, .setEnabled "report" true, .tick 23,
    .statement (.claim (some "w1") none 30 24), .tick 31]

theorem slots_covered_steadyCalls :
    HasKey ((Call.add reportArgs :: steadyCalls).foldl (doCall exactSeconds) .empty).jobs
      (slotKey exactSeconds "report" 20) := by
  have hslot : (20 : ℚ) ∈ Grid.points reportArgs.row.nextRun reportArgs.intervalS :=
    ⟨2, by decide +kernel⟩
  have hcovered := @slots_covered exactSeconds _ reportArgs isTimeText_exactSeconds [] steadyCalls
    (by decide +kernel) (run_doCalls exactSeconds .empty (.add reportArgs :: steadyCalls)) (by simp)
    (by simp [steadyCalls, Call.Replaces, Call.Adds, Call.TakesKey]) (by decide +kernel) 20 hslot
  exact hcovered.2 (-1) (by decide +kernel) (by decide +kernel) ⟨23, by decide +kernel⟩

end Relay.System
