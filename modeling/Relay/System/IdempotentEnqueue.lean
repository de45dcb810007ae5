import Relay.System.Ticks
import Relay.System.Execution

/-!
# Enqueueing is idempotent

Between the two statements of an `enqueue` anything can happen, but no row is ever deleted. So the
key that the `INSERT` found taken is still there for the `SELECT`, which finds its row
(`lookup_finds_row`), and the job of a key is the same one through its whole life
(`idempotent_enqueue`).
-/

set_option autoImplicit false
set_option relaxedAutoImplicit false

namespace Relay.System

open Foundations Store Queue Scheduler Workers

variable {timeText : ℚ → String} {s t : State} {e : Event} {es : List Event}

/-- A producer between its two statements has found its key taken, and it still is. -/
theorem enqueue_hasKey_of_run {db : Database} (hrun : Run (Step timeText) (.start db) es s) :
    ∀ i args, s.tasks i = some (.enqueue args) →
      ∃ key, args.idempotencyKey = some key ∧ HasKey s.db.jobs key := by
  refine hrun.invariant (fun s ↦ ∀ i args, s.tasks i = some (.enqueue args) →
      ∃ key, args.idempotencyKey = some key ∧ HasKey s.db.jobs key) ?_ ?_
  · intro s e t hkeys h i args htask
    have hstep := h.taskStep i
    have hbefore := hkeys i
    rw [htask] at hstep
    generalize s.tasks i = before at hstep hbefore
    cases hstep with
    | conflict args =>
      have hinsert := (Prod.mk.inj (h.queue_step.2 _ rfl)).2
      obtain ⟨key, hkey, htaken⟩ := insert_none_iff.mp (Reply.inserted.inj hinsert)
      exact ⟨key, hkey, h.hasKey htaken⟩
    | other _ _ hi =>
      obtain ⟨key, hkey, htaken⟩ := hbefore args rfl
      exact ⟨key, hkey, h.hasKey htaken⟩
  · exact fun _ _ h ↦ nomatch h

/-- The `SELECT` of an `enqueue` always finds a row. -/
theorem lookup_finds_row {db : Database} (hrun : Run (Step timeText) (.start db) es s)
    (h : Step timeText s e t) (key : Option String) :
    e.queue? ≠ some ⟨.selectKey key, .selected none⟩ := by
  intro hentry
  cases h with
  | call statement hsingle =>
    obtain ⟨rfl, -⟩ := Queue.Event.mk.inj (Option.some.inj hentry)
    exact hsingle
  | lookup i args htask =>
    obtain ⟨k, hkey, htaken⟩ := enqueue_hasKey_of_run hrun i args htask
    obtain ⟨-, hreply⟩ := Queue.Event.mk.inj (Option.some.inj hentry)
    have hnone := Reply.selected.inj hreply
    have hsome := selectKey_isSome_of_hasKey htaken
    rw [hkey] at hnone
    rw [hnone] at hsome
    cases hsome
  | tickLookup i now due row rest htask =>
    have htaken := (tickSound_of_run hrun i _ htask).fired nofun row rfl
    obtain ⟨-, hreply⟩ := Queue.Event.mk.inj (Option.some.inj hentry)
    have hnone := Reply.selected.inj hreply
    have hsome := selectKey_isSome_of_hasKey htaken
    rw [show (slotArgs timeText now row).idempotencyKey =
      some (slotKey timeText row.name row.nextRun) from rfl] at hnone
    rw [hnone] at hsome
    cases hsome
  | _ => cases hentry

/-- What the enqueues of a history were given as keys and returned, in the order in which they
returned. -/
def returnedIds (es : List Event) : List (Option String × ℕ) :=
  (es.filterMap Event.queue?).filterMap Queue.Event.returned?

/-- Enqueueing is idempotent over whole runs. The `SELECT` always finds a row; two enqueues return
the same id exactly when they were given the same key, and not when they were given none; no two
rows carry one key; and the row of a key is the one the first insert of the key that took effect
described, with the text of `payload or {}` as its payload. -/
theorem idempotent_enqueue (hrun : Run (Step timeText) (.start .empty) es s) :
    (∀ e ∈ es, ∀ key, e.queue? ≠ some ⟨.selectKey key, .selected none⟩) ∧
    (returnedIds es).Pairwise (fun a b ↦ a.2 = b.2 ↔ a.1 = b.1 ∧ a.1.isSome) ∧
    (∀ a ∈ s.db.jobs.rows, ∀ b ∈ s.db.jobs.rows,
      SqlEq a.idempotencyKey b.idempotencyKey → a = b) ∧
    ∀ row ∈ s.db.jobs.rows, ∀ key, row.idempotencyKey = some key →
      ∃ before args after,
        es.filterMap Event.queue? = before ++ ⟨.insert args, .inserted (some row.id)⟩ :: after ∧
        args.idempotencyKey = some key ∧
        (∀ entry ∈ before, entry.insertedKey? ≠ some key) ∧
        row.kind = args.kind ∧ row.payload = dumpsOrEmpty args.payload ∧
        row.priority = args.priority ∧ row.maxAttempts = args.maxAttempts := by
  have hqueue := run_queue hrun
  refine ⟨fun e he ↦ ?_, (returned_pairwise hqueue).1, fun a ha b hb ↦ Jobs.eq_of_key ha hb,
    fun row hrow key hkey ↦ ?_⟩
  · obtain ⟨before, after, rfl⟩ := List.append_of_mem he
    obtain ⟨u, v, hleft, hstep, -⟩ := hrun.at_label
    exact lookup_finds_row hleft hstep
  · obtain ⟨before, args, after, hhistory, hticket⟩ := inserted_of_run hqueue row hrow
    have hargs : args.idempotencyKey = some key :=
      (congrArg Ticket.idempotencyKey hticket).symm.trans hkey
    refine ⟨before, args, after, hhistory, hargs, fun entry hentry hagain ↦ ?_,
      congrArg Ticket.kind hticket, congrArg Ticket.payload hticket,
      congrArg Ticket.priority hticket, congrArg Ticket.maxAttempts hticket⟩
    have hnodup := (insertedKeys_nodup hqueue).1
    rw [hhistory, List.filterMap_append, List.filterMap_cons_some (by exact hargs),
      List.nodup_append] at hnodup
    exact hnodup.2.2 key (List.mem_filterMap.mpr ⟨entry, hentry, hagain⟩) key
      (List.mem_cons_self ..) rfl

/-- Two producers and a tick; the second producer uses the key of the first, whose job is done by
the time of its `SELECT`. -/
def repeatedEnqueue : List Action :=
  [.add ⟨"report", "email", "null", 10, some 0, 0⟩,
    .enqueue 0 ⟨"sms", "null", 0, 5, 0, some "k", 0⟩,
    .enqueue 1 ⟨"email", "null", 0, 5, 0, some "k", 1⟩, .claim 2 ⟨"w1", 60, 1, 300, ["sms"]⟩ 1,
    .tick 3 5, .resume 3, .handled 2 .returned, .resume 2, .resume 1]

theorem idempotent_enqueue_repeatedEnqueue :
    (returnedIds (runActions wholeSeconds (.start .empty) repeatedEnqueue).1).Pairwise
      (fun a b ↦ a.2 = b.2 ↔ a.1 = b.1 ∧ a.1.isSome) :=
  (idempotent_enqueue (run_runActions wholeSeconds (.start .empty) repeatedEnqueue)).2.1

end Relay.System
