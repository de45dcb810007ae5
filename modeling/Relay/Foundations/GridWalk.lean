import Relay.Foundations.Grid
import Mathlib.Data.List.Chain
import Mathlib.Tactic.Ring

/-!
# Walking along a grid

A walker stands at a point of a grid. At each of a list of times it leaves its point for the first
grid point after the time, if its point is not after the time already. `walk` lists the points it
leaves, each with the time at which it does. Points are skipped when the times are far apart: when
the times come in order, the walker leaves a point exactly if it is where it started or one of the
times falls into the step before it, and one of the times is not before it (`mem_walk_iff`). So no
point is skipped when there is never more than a step from one time to the next
(`mem_walk_of_isChain`).
-/

set_option autoImplicit false
set_option relaxedAutoImplicit false

namespace Relay.Foundations.Grid

variable {R : Type*} [Field R] [LinearOrder R] [FloorRing R]

/-- Where a walker is after a time. -/
def pass (step x now : R) : R := if x ≤ now then nextPoint now x step else x

/-- The points a walker leaves, with the times. -/
def walk (step : R) : R → List R → List (R × R)
  | _, [] => []
  | x, now :: times => (if x ≤ now then [(x, now)] else []) ++ walk step (pass step x now) times

variable {step x y now : R} {times : List R}

theorem walk_append (step x : R) (times times' : List R) : walk step x (times ++ times') =
    walk step x times ++ walk step (times.foldl (pass step) x) times' := by
  induction times generalizing x with
  | nil => rfl
  | cons now times ih => rw [List.cons_append, walk, walk, ih, List.append_assoc, List.foldl_cons]

variable [IsStrictOrderedRing R]

theorem le_pass (hstep : 0 < step) : x ≤ pass step x now := by
  unfold pass
  split_ifs with hnow
  · exact (start_lt_nextPoint hstep hnow).le
  · exact le_rfl

omit [FloorRing R] in
/-- A point of a grid is its start, or at least a step after it. -/
theorem eq_or_add_le_of_mem_points (hstep : 0 < step) (hy : y ∈ points x step) :
    y = x ∨ x + step ≤ y := by
  obtain ⟨k, rfl⟩ := hy
  cases k with
  | zero => exact .inl (by simp)
  | succ k =>
    have hnonneg : 0 ≤ (k : R) * step := by positivity
    refine .inr ?_
    push_cast
    linarith

/-- The points of a grid after a time are those of the grid from the first of them on. -/
theorem mem_points_nextPoint (hstep : 0 < step) (hnow : x ≤ now) (hy : y ∈ points x step)
    (hlt : now < y) : y ∈ points (nextPoint now x step) step := by
  have hle : nextPoint now x step ≤ y :=
    (isLeast_nextPoint hstep (start_mem_points x step) hnow).2 ⟨hy, hlt⟩
  obtain ⟨n, -, hn⟩ := exists_nat_nextPoint hstep hnow
  obtain ⟨k, rfl⟩ := hy
  rw [hn] at hle ⊢
  have hmul : (n : R) * step ≤ k * step := by linarith
  have hnk : n ≤ k := by exact_mod_cast le_of_mul_le_mul_right hmul hstep
  refine ⟨k - n, ?_⟩
  rw [Nat.cast_sub hnk]
  ring

/-- A walker never comes back to a point before the one it stands at. -/
theorem le_of_mem_walk (hstep : 0 < step) (hy : y ∈ (walk step x times).map Prod.fst) : x ≤ y := by
  induction times generalizing x with
  | nil => cases hy
  | cons now times ih =>
    rw [walk, List.map_append, List.mem_append] at hy
    rcases hy with hy | hy
    · split_ifs at hy with hnow
      · rw [List.mem_singleton.mp hy]
      · cases hy
    · exact (le_pass hstep).trans (ih hy)

/-- A time at which the walker stands at a point at or before it leaves this point for good. -/
theorem mem_walk_cons_of_le (hstep : 0 < step) (hy : y ∈ points x step) (hle : y ≤ now) :
    y ∈ (walk step x (now :: times)).map Prod.fst ↔ y = x := by
  have hxy : x ≤ y := by
    rcases eq_or_add_le_of_mem_points hstep hy with rfl | hadd
    · exact le_rfl
    · linarith
  have hnow : x ≤ now := hxy.trans hle
  have hgone : y ∉ (walk step (pass step x now) times).map Prod.fst := by
    intro hleft
    have hback := le_of_mem_walk hstep hleft
    rw [pass, if_pos hnow] at hback
    exact absurd (hback.trans hle) (not_le.mpr (lt_nextPoint hstep))
  rw [walk, if_pos hnow, List.map_append, List.mem_append, or_iff_left hgone]
  exact List.mem_singleton

/-- The points after a time are left from where the walker stands then; it stands at one of them
exactly if the time falls into the step before it or it has stood there already. -/
theorem mem_walk_cons_of_lt (times : List R) (hstep : 0 < step) (hy : y ∈ points x step)
    (hlt : now < y) :
    y ∈ points (pass step x now) step ∧
    (y = pass step x now ↔ y = x ∨ y - step ≤ now) ∧
    (y ∈ (walk step x (now :: times)).map Prod.fst ↔
      y ∈ (walk step (pass step x now) times).map Prod.fst) := by
  unfold pass
  rw [walk, List.map_append, List.mem_append, pass]
  by_cases hnow : x ≤ now
  · have hpoint := mem_points_nextPoint hstep hnow hy hlt
    have hne : y ≠ x := (hnow.trans_lt hlt).ne'
    rw [if_pos hnow, if_pos hnow]
    refine ⟨hpoint, ?_, or_iff_right fun hmem ↦ hne (List.mem_singleton.mp hmem)⟩
    rw [or_iff_right hne]
    constructor
    · rintro rfl
      exact nextPoint_sub_le hstep
    · intro hsub
      refine (eq_or_add_le_of_mem_points hstep hpoint).resolve_right fun hadd ↦ ?_
      have hafter : now < nextPoint now x step := lt_nextPoint hstep
      linarith
  · rw [if_neg hnow, if_neg hnow]
    refine ⟨hy, ?_, or_iff_right List.not_mem_nil⟩
    refine ⟨.inl, fun h ↦ h.elim id fun hsub ↦ ?_⟩
    refine (eq_or_add_le_of_mem_points hstep hy).resolve_right fun hadd ↦ ?_
    linarith [not_le.mp hnow]

/-- The points a walker leaves when the times come in order. -/
theorem mem_walk_iff (hstep : 0 < step) (horder : times.Pairwise (· ≤ ·))
    (hy : y ∈ points x step) : y ∈ (walk step x times).map Prod.fst ↔
      (y = x ∨ ∃ now ∈ times, y - step ≤ now ∧ now < y) ∧ ∃ now ∈ times, y ≤ now := by
  induction times generalizing x with
  | nil => simp [walk]
  | cons now times ih =>
    obtain ⟨hfirst, hrest⟩ := List.pairwise_cons.mp horder
    simp only [List.mem_cons, exists_eq_or_imp]
    rcases le_or_gt y now with hle | hlt
    · have hlater : ¬ ∃ time ∈ times, y - step ≤ time ∧ time < y := by
        rintro ⟨time, htime, -, hbefore⟩
        exact absurd (hle.trans (hfirst time htime)) (not_le.mpr hbefore)
      rw [mem_walk_cons_of_le hstep hy hle]
      have hnow : ¬ (y - step ≤ now ∧ now < y) := fun h ↦ absurd hle (not_le.mpr h.2)
      rw [or_iff_left hlater, or_iff_left hnow]
      exact (and_iff_left (.inl hle)).symm
    · obtain ⟨hpoint, hstands, hleft⟩ := mem_walk_cons_of_lt times hstep hy hlt
      rw [hleft, ih hrest hpoint, hstands]
      simp [hlt, or_assoc]

omit [FloorRing R] in
/-- Where there is never more than a step from one time to the next, a time falls into the step
before each point between the first time and the last. -/
theorem exists_mem_of_isChain (hchain : (now :: times).IsChain fun a b ↦ b ≤ a + step)
    (hfirst : now < y) (hlast : ∃ time ∈ times, y ≤ time) :
    ∃ time ∈ now :: times, y - step ≤ time ∧ time < y := by
  induction times generalizing now with
  | nil => simp at hlast
  | cons time times ih =>
    obtain ⟨hgap, hrest⟩ := List.isChain_cons_cons.mp hchain
    rcases le_or_gt y time with hle | hlt
    · exact ⟨now, List.mem_cons_self .., by linarith, hfirst⟩
    · obtain ⟨later, hmem, hlater⟩ := hlast
      have hlast : ∃ later ∈ times, y ≤ later := by
        rcases List.mem_cons.mp hmem with rfl | hmem
        · exact absurd hlater (not_le.mpr hlt)
        · exact ⟨later, hmem, hlater⟩
      obtain ⟨near, hnear, hstep⟩ := ih hrest hlt hlast
      exact ⟨near, List.mem_cons_of_mem _ hnear, hstep⟩

/-- No point up to the last time is skipped when there is never more than a step from one time to
the next, nor from a time before the start to the start and to the first of them. -/
theorem mem_walk_of_isChain (hstep : 0 < step) (horder : times.Pairwise (· ≤ ·))
    (hbefore : now < x) (hchain : (now :: times).IsChain fun a b ↦ b ≤ a + step)
    (hy : y ∈ points x step) (hlast : ∃ time ∈ times, y ≤ time) :
    y ∈ (walk step x times).map Prod.fst := by
  refine (mem_walk_iff hstep horder hy).mpr ⟨?_, hlast⟩
  rcases eq_or_add_le_of_mem_points hstep hy with hsame | hadd
  · exact .inl hsame
  · obtain ⟨time, hmem, hnear⟩ := exists_mem_of_isChain hchain (by linarith) hlast
    rcases List.mem_cons.mp hmem with rfl | hmem
    · linarith [hnear.1]
    · exact .inr ⟨time, hmem, hnear⟩

end Relay.Foundations.Grid
