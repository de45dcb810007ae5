import Relay.System.Execution

/-!
# The clock

The system with one clock that never decreases. Every call that is given no time reads it, in the
step that uses the reading (`ClockedStep`); the later statements of the call use the same reading,
so only the first step of a call is tied to the clock. `runClocked` computes runs, as `runActions`
does without the clock.
-/

set_option autoImplicit false
set_option relaxedAutoImplicit false

namespace Relay.System

open Foundations Store Queue Scheduler Workers

/-- The time in a statement of the queue. -/
def statementTime? : Statement ℚ → Option ℚ
  | .insert args => some args.now
  | .selectKey _ => none
  | .claim _ _ _ now => some now
  | .settle _ _ _ now => some now
  | .releaseExpired now => some now
  | .requeueDead _ now => some now

/-- The time a step reads off the clock. The later steps of a call use the reading of its first. -/
def Event.reading? : Event → Option ℚ
  | .call entry => statementTime? entry.statement
  | .enqueue _ args _ => some args.now
  | .add args _ => some args.now
  | .tickSelect _ now _ => some now
  | .claim _ _ now _ => some now
  | _ => none

/-- A step of the system at a reading of the clock, with the clock after the state. -/
def ClockedStep (timeText : ℚ → String) (before : State × ℚ) (e : Event × ℚ) (after : State × ℚ) :
    Prop :=
  Step timeText before.1 e.1 after.1 ∧ before.2 ≤ e.2 ∧ after.2 = e.2 ∧
    ∀ now ∈ e.1.reading?, now = e.2

/-- One action at a reading of the clock, if it is possible. -/
def actAt (timeText : ℚ → String) (before : State × ℚ) (action : Action × ℚ) :
    Option ((Event × ℚ) × (State × ℚ)) :=
  match act timeText before.1 action.1 with
  | some (e, s) =>
    if before.2 ≤ action.2 ∧ ∀ now ∈ e.reading?, now = action.2 then
      some ((e, action.2), (s, action.2))
    else none
  | none => none

theorem clockedStep_actAt {timeText : ℚ → String} {before after : State × ℚ} {action : Action × ℚ}
    {e : Event × ℚ} (h : actAt timeText before action = some (e, after)) :
    ClockedStep timeText before e after := by
  unfold actAt at h
  split at h
  · rename_i hact
    split_ifs at h with hclock
    obtain ⟨rfl, rfl⟩ := Prod.mk.inj (Option.some.inj h)
    exact ⟨step_act hact, hclock.1, rfl, hclock.2⟩
  · cases h

/-- What a list of timed actions does from an empty database and a clock at 0. -/
abbrev runClocked (actions : List (Action × ℚ)) : List (Event × ℚ) × (State × ℚ) :=
  execute (actAt wholeSeconds) (State.start .empty, 0) actions

theorem run_runClocked (actions : List (Action × ℚ)) :
    Run (ClockedStep wholeSeconds) (.start .empty, 0) (runClocked actions).1
      (runClocked actions).2 := by
  refine run_execute (fun before action e after h ↦ ?_) (State.start .empty, 0) actions
  exact clockedStep_actAt h

end Relay.System
