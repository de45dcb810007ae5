import Relay.Foundations.Run
import Mathlib.Logic.Function.Iterate
import Mathlib.Order.Interval.Set.Defs
import Mathlib.Order.WellFounded
import Mathlib.Data.Nat.Find

/-!
# Infinite runs

`InfiniteRun step` is a run that never ends: a state and a label for every number, each state taken
to the next by the step with that label. Its finite pieces are runs (`InfiniteRun.run`), so what is
known of runs holds of every state of it. `settles` is the rule for progress: a view of the states
that changes only when a rank in `ℕ` goes down stops changing. `recurs` is the rule for recurrence:
when some steps recur and each of them comes closer to a goal, the goal recurs. `iterate` makes an
infinite run of a function, and `map` is simulation.
-/

set_option autoImplicit false
set_option relaxedAutoImplicit false

namespace Relay.Foundations

variable {σ ε σ' ε' α : Type*} {step : σ → ε → σ → Prop}

/-- A run that never ends. -/
structure InfiniteRun (step : σ → ε → σ → Prop) where
  state : ℕ → σ
  label : ℕ → ε
  follows : ∀ n, step (state n) (label n) (state (n + 1))

namespace InfiniteRun

/-- The labels of the steps from `n` to `n + k`. -/
def history (x : InfiniteRun step) (n k : ℕ) : List ε := (List.range' n k).map x.label

theorem run (x : InfiniteRun step) (n k : ℕ) :
    Run step (x.state n) (x.history n k) (x.state (n + k)) := by
  induction k generalizing n with
  | zero => exact .nil _
  | succ k ih =>
    rw [history, List.range'_succ, List.map_cons, ← history]
    have htail := ih (n + 1)
    rw [show n + 1 + k = n + (k + 1) by omega] at htail
    exact .cons (x.follows n) htail

/-- What every step from some point on keeps, and holds there, holds from there on. -/
theorem keeps (x : InfiniteRun step) (inv : σ → Prop) {n : ℕ}
    (next : ∀ k, n ≤ k → inv (x.state k) → inv (x.state (k + 1))) (h : inv (x.state n)) :
    ∀ k, n ≤ k → inv (x.state k) := by
  intro k hk
  induction k, hk using Nat.le_induction with
  | base => exact h
  | succ k hk ih => exact next k hk ih

/-- A view that changes only when its rank goes down stops changing. -/
theorem settles {x : InfiniteRun step} (view : σ → α) (rank : α → ℕ) {n : ℕ}
    (descends : ∀ k, n ≤ k → view (x.state (k + 1)) = view (x.state k) ∨
      rank (view (x.state (k + 1))) < rank (view (x.state k))) :
    ∃ m, n ≤ m ∧ ∀ k, m ≤ k → view (x.state k) = view (x.state m) := by
  -- from a state of the lowest rank on, the rank cannot go down
  obtain ⟨m, hm, hlowest⟩ : ∃ m, n ≤ m ∧
      ∀ k, n ≤ k → rank (view (x.state m)) ≤ rank (view (x.state k)) := by
    have hnonempty : (Set.Ici n).Nonempty := ⟨n, le_refl n⟩
    let lowest := Function.argminOn (fun k ↦ rank (view (x.state k))) (Set.Ici n) hnonempty
    refine ⟨lowest, Function.argminOn_mem _ (Set.Ici n) hnonempty, fun k hk ↦ ?_⟩
    exact Function.argminOn_le (fun k ↦ rank (view (x.state k))) (Set.Ici n) hk
  refine ⟨m, hm, x.keeps (fun s ↦ view s = view (x.state m)) (fun k hk hsame ↦ ?_) rfl⟩
  rcases descends k (hm.trans hk) with hkept | hlower
  · exact hkept.trans hsame
  · have hbound := hlowest (k + 1) (by omega)
    rw [hsame] at hlower
    omega

/-- When marked steps recur, each of them reaches the goal or lowers a rank, and no other step
raises the rank, the goal recurs. -/
theorem recurs (x : InfiniteRun step) (rank : σ → ℕ) {marked goal : ℕ → Prop}
    (hmarked : ∀ n, ∃ k, n ≤ k ∧ marked k)
    (closer : ∀ k, goal k ∨ rank (x.state (k + 1)) < rank (x.state k) ∨
      (¬ marked k ∧ rank (x.state (k + 1)) = rank (x.state k))) :
    ∀ n, ∃ k, n ≤ k ∧ goal k := by
  intro n
  by_contra hnever
  have hmissed : ∀ k, n ≤ k → ¬ goal k := fun k hk hgoal ↦ hnever ⟨k, hk, hgoal⟩
  obtain ⟨m, hm, hsettled⟩ := x.settles (n := n) rank id fun k hk ↦ by
    rcases closer k with hgoal | hlower | ⟨-, hkept⟩
    · exact absurd hgoal (hmissed k hk)
    · exact .inr hlower
    · exact .inl hkept
  -- a marked step cannot lower the settled rank
  obtain ⟨k, hk, hmark⟩ := hmarked m
  rcases closer k with hgoal | hlower | ⟨hunmarked, -⟩
  · exact hmissed k (hm.trans hk) hgoal
  · rw [hsettled k hk, hsettled (k + 1) (by omega)] at hlower
    exact lt_irrefl _ hlower
  · exact hunmarked hmark

/-- What every unmarked step keeps still holds at the next marked step. -/
theorem exists_marked (x : InfiniteRun step) (inv : σ → Prop) {marked : ℕ → Prop} {n : ℕ}
    (hmarked : ∃ k, n ≤ k ∧ marked k)
    (next : ∀ k, ¬ marked k → inv (x.state k) → inv (x.state (k + 1))) (h : inv (x.state n)) :
    ∃ k, n ≤ k ∧ marked k ∧ inv (x.state k) := by
  classical
  have hfirst := Nat.find_spec hmarked
  have hbefore : ∀ k, n ≤ k → k ≤ Nat.find hmarked → inv (x.state k) := by
    intro k hk
    induction k, hk using Nat.le_induction with
    | base => exact fun _ ↦ h
    | succ k hk ih =>
      intro hle
      refine next k (fun hmark ↦ ?_) (ih (by omega))
      exact Nat.find_min hmarked (by omega) ⟨hk, hmark⟩
  exact ⟨Nat.find hmarked, hfirst.1, hfirst.2, hbefore _ hfirst.1 le_rfl⟩

/-! ### Making infinite runs -/

/-- The infinite run of a function that always does a step, within an invariant. -/
def iterate (next : σ → ε × σ) (inv : σ → Prop)
    (sound : ∀ s, inv s → step s (next s).1 (next s).2 ∧ inv (next s).2) (s : σ) (h : inv s) :
    InfiniteRun step where
  state n := (fun s ↦ (next s).2)^[n] s
  label n := (next ((fun s ↦ (next s).2)^[n] s)).1
  follows n := by
    have hinv := Function.Iterate.rec inv h (fun s hs ↦ (sound s hs).2) n
    rw [Function.iterate_succ_apply']
    exact (sound _ hinv).1

/-- Every step of it is one of the function, from a state within the invariant. -/
theorem iterate_step {next : σ → ε × σ} {inv : σ → Prop}
    {sound : ∀ s, inv s → step s (next s).1 (next s).2 ∧ inv (next s).2} {s : σ} {h : inv s}
    (n : ℕ) : inv ((iterate next inv sound s h).state n) ∧
      next ((iterate next inv sound s h).state n) =
        ((iterate next inv sound s h).label n, (iterate next inv sound s h).state (n + 1)) := by
  refine ⟨Function.Iterate.rec inv h (fun s hs ↦ (sound s hs).2) n, Prod.ext rfl ?_⟩
  exact (Function.iterate_succ_apply' (fun s ↦ (next s).2) n s).symm

/-- Simulation: a view that turns every step into a step of a second system turns infinite runs
into infinite runs of it. -/
def map {step' : σ' → ε' → σ' → Prop} (x : InfiniteRun step) (view : σ → σ') (label : ε → ε')
    (simulates : ∀ s e t, step s e t → step' (view s) (label e) (view t)) :
    InfiniteRun step' where
  state n := view (x.state n)
  label n := label (x.label n)
  follows n := simulates _ _ _ (x.follows n)

end InfiniteRun

end Relay.Foundations
