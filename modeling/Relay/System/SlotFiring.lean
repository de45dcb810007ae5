import Relay.System.Ticks
import Relay.System.Execution

/-!
# Every slot fires exactly once

Ticks with any clocks run side by side, and each may stop after any statement. The unique key lets
one job per slot into the table. The `UPDATE` of a tick comes after its `enqueue`, so a schedule
leaves a slot only when the job of the slot is there. The guard on `next_run` lets one `UPDATE`
leave a slot, for a later time, so between two replacements a schedule leaves its slots in
increasing order (`slots_fire_once`).
-/

set_option autoImplicit false
set_option relaxedAutoImplicit false

namespace Relay.System

open Foundations Store Queue Scheduler Workers

/-- The keys of the inserts of a history that took effect. -/
def insertedKeys (es : List Event) : List String :=
  (es.filterMap Event.queue?).filterMap Queue.Event.insertedKey?

variable {timeText : ℚ → String} {s t : State} {e : Event} {es : List Event}

/-- Between two replacements a schedule moves forward, from each slot once. -/
theorem nextRun_run {db : Database} (hrun : Run (Step timeText) (.start db) es s) {name : String}
    {segment : List Event} (hsegment : Run (Step timeText) s segment t) :
    (∀ e ∈ segment, ¬ e.Replaces name) →
    (∀ new ∈ t.db.schedules.row? name,
      ∃ old ∈ s.db.schedules.row? name, old.nextRun ≤ new.nextRun) ∧
    (segment.filterMap (Event.advancedFrom? name)).Pairwise (· < ·) ∧
    ∀ slot ∈ segment.filterMap (Event.advancedFrom? name), ∀ new ∈ t.db.schedules.row? name,
      slot < new.nextRun := by
  refine hsegment.history (motive := fun segment t ↦ (∀ e ∈ segment, ¬ e.Replaces name) →
    (∀ new ∈ t.db.schedules.row? name,
      ∃ old ∈ s.db.schedules.row? name, old.nextRun ≤ new.nextRun) ∧
    (segment.filterMap (Event.advancedFrom? name)).Pairwise (· < ·) ∧
    ∀ slot ∈ segment.filterMap (Event.advancedFrom? name), ∀ new ∈ t.db.schedules.row? name,
      slot < new.nextRun) ?_ ?_
  · intro _
    exact ⟨fun new hnew ↦ ⟨new, hnew, le_rfl⟩, .nil, by simp⟩
  · intro segment u e v hleft ih h hkeep
    obtain ⟨hforward, hslots, hbelow⟩ := ih fun f hf ↦ hkeep f (List.mem_append_left _ hf)
    have hlast : ¬ e.Replaces name := hkeep e (List.mem_append_right _ (List.mem_singleton_self e))
    rcases nextRun_step (hrun.append hleft) h hlast with
      ⟨hfrom, hsame⟩ | ⟨old, new, hold, hnew, hfrom, hlt⟩
    · have hback : ∀ new ∈ v.db.schedules.row? name,
          ∃ old ∈ u.db.schedules.row? name, old.nextRun = new.nextRun := by
        intro new hnew
        rw [Option.mem_def.mp hnew] at hsame
        exact Option.map_eq_some_iff.mp hsame.symm
      simp only [List.filterMap_append, List.filterMap_cons_none hfrom, List.filterMap_nil,
        List.append_nil]
      refine ⟨fun new hnew ↦ ?_, hslots, fun slot hslot new hnew ↦ ?_⟩
      · obtain ⟨old, hold, heq⟩ := hback new hnew
        exact heq ▸ hforward old hold
      · obtain ⟨old, hold, heq⟩ := hback new hnew
        exact heq ▸ hbelow slot hslot old hold
    · simp only [List.filterMap_append, List.filterMap_cons_some hfrom, List.filterMap_nil]
      refine ⟨fun new' hnew' ↦ ?_, ?_, fun slot hslot new' hnew' ↦ ?_⟩
      · obtain ⟨first, hfirst, hle⟩ := hforward old hold
        exact ⟨first, hfirst, Option.mem_unique hnew hnew' ▸ hle.trans hlt.le⟩
      · refine List.pairwise_append.mpr ⟨hslots, List.pairwise_singleton _ _, ?_⟩
        intro slot hslot last hlast'
        rw [List.mem_singleton.mp hlast']
        exact hbelow slot hslot old hold
      · rw [← Option.mem_unique hnew hnew']
        rcases List.mem_append.mp hslot with hslot | hslot
        · exact (hbelow slot hslot old hold).trans hlt
        · exact List.mem_singleton.mp hslot ▸ hlt

/-- Every slot fires exactly once. After any run: no slot has been given more than one job; if the
`UPDATE` of a tick then moves a schedule, the job of the slot it leaves is in the table; and until
the next `add` or `remove` of its name, a schedule only moves to later times, and leaves each slot
at most once. -/
theorem slots_fire_once {db : Database} (hrun : Run (Step timeText) (.start db) es s) :
    (∀ name slot, (insertedKeys es).count (slotKey timeText name slot) ≤ 1) ∧
    (∀ i now row moved t, Step timeText s (.tickUpdate i now row moved) t →
      ∀ name, ∀ old ∈ s.db.schedules.row? name, ∀ new ∈ t.db.schedules.row? name,
        old.nextRun ≠ new.nextRun → HasKey s.db.jobs (slotKey timeText name old.nextRun)) ∧
    ∀ name segment t, Run (Step timeText) s segment t → (∀ e ∈ segment, ¬ e.Replaces name) →
      (∀ old ∈ s.db.schedules.row? name, ∀ new ∈ t.db.schedules.row? name,
        old.nextRun ≤ new.nextRun) ∧
      (segment.filterMap (Event.advancedFrom? name)).Pairwise (· < ·) := by
  refine ⟨fun name slot ↦ ?_, fun i now row moved t h name old hold new hnew hne ↦ ?_,
    fun name segment t hsegment hkeep ↦ ?_⟩
  · exact List.nodup_iff_count_le_one.mp (insertedKeys_nodup (run_queue hrun)).1 _
  · have hkept : ¬ (Event.tickUpdate i now row moved).Replaces name := id
    rcases nextRun_step hrun h hkept with ⟨-, hsame⟩ | ⟨old', -, hold', -, hfrom, -⟩
    · rw [Option.mem_def.mp hold, Option.mem_def.mp hnew] at hsame
      exact absurd (Option.some.inj hsame).symm hne
    · obtain ⟨_, _, _, hevent, hname, hslot⟩ := advancedFrom?_eq_some hfrom
      cases hevent
      rw [Option.mem_unique hold hold', ← hname, ← hslot]
      exact (row_of_tickUpdate hrun h).2.2
  · obtain ⟨hforward, hslots, -⟩ := nextRun_run hrun hsegment hkeep
    refine ⟨fun old hold new hnew ↦ ?_, hslots⟩
    obtain ⟨old', hold', hle⟩ := hforward new hnew
    exact Option.mem_unique hold' hold ▸ hle

/-- Two ticks with different clocks on one schedule, of which the second stops before its
`UPDATE`, and a third after them. -/
def overlappingTicks : List Action :=
  [.add ⟨"report", "email", "null", 10, some 0, 0⟩, .tick 0 5, .tick 1 25, .resume 0, .resume 1,
    .resume 1, .resume 0, .tick 2 25, .resume 2, .resume 2]

theorem slots_fire_once_overlappingTicks :
    (insertedKeys (runActions wholeSeconds (.start .empty) overlappingTicks).1).count
      (slotKey wholeSeconds "report" 0) ≤ 1 :=
  (slots_fire_once (run_runActions wholeSeconds (.start .empty) overlappingTicks)).1 "report" 0

end Relay.System
