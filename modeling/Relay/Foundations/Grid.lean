import Mathlib.Algebra.Order.Floor.Ring
import Mathlib.Algebra.Order.Field.Basic
import Mathlib.Data.List.Perm.Subperm
import Mathlib.Tactic.FieldSimp
import Mathlib.Tactic.Linarith

/-!
# The next point of a grid

From a point `start` and a positive step, `nextPoint now start step` is the first point
`start + k * step` that lies strictly after `now`. The index `periods` of that point is a floor
plus one, so it is at least one whenever `start` is not after `now`. Taken again and again, with any
times, the next point stays on the grid of the first start, and is each time the first point of that
grid after `now` (`isLeast_nextPoint`).
-/

set_option autoImplicit false
set_option relaxedAutoImplicit false

namespace Relay.Foundations.Grid

variable {R : Type*} [Field R] [LinearOrder R] [FloorRing R]

/-- The number of whole steps from `start` to the first grid point after `now`. -/
def periods (now start step : R) : ℤ := ⌊(now - start) / step⌋ + 1

/-- The first grid point after `now`. -/
def nextPoint (now start step : R) : R := start + periods now start step * step

variable [IsStrictOrderedRing R] {now start step : R}

theorem lt_nextPoint (hstep : 0 < step) : now < nextPoint now start step := by
  have hfloor : (now - start) / step < periods now start step := by
    rw [periods]
    push_cast
    exact Int.lt_floor_add_one _
  rw [div_lt_iff₀ hstep] at hfloor
  rw [nextPoint]
  linarith

theorem nextPoint_sub_le (hstep : 0 < step) : nextPoint now start step - step ≤ now := by
  have hfloor : ((periods now start step : ℤ) : R) - 1 ≤ (now - start) / step := by
    rw [periods]
    push_cast
    linarith [Int.floor_le ((now - start) / step)]
  rw [le_div_iff₀ hstep] at hfloor
  rw [nextPoint]
  linarith

theorem one_le_periods (hstep : 0 < step) (hnow : start ≤ now) :
    1 ≤ periods now start step := by
  have hfloor : 0 ≤ ⌊(now - start) / step⌋ :=
    Int.floor_nonneg.mpr (div_nonneg (sub_nonneg.mpr hnow) hstep.le)
  rw [periods]
  linarith

theorem start_lt_nextPoint (hstep : 0 < step) (hnow : start ≤ now) :
    start < nextPoint now start step := hnow.trans_lt (lt_nextPoint hstep)

/-- The next point is a whole number of steps, at least one, from the start. -/
theorem exists_nat_nextPoint (hstep : 0 < step) (hnow : start ≤ now) :
    ∃ n : ℕ, 1 ≤ n ∧ nextPoint now start step = start + n * step := by
  have hone := one_le_periods hstep hnow
  obtain ⟨n, hn⟩ := Int.eq_ofNat_of_zero_le (zero_le_one.trans hone)
  refine ⟨n, by omega, ?_⟩
  rw [nextPoint, hn, Int.cast_natCast]

/-! ### All points of a grid -/

/-- The points `start`, `start + step`, `start + 2 * step` and so on. -/
def points (start step : R) : Set R := {x | ∃ k : ℕ, x = start + k * step}

omit [LinearOrder R] [FloorRing R] [IsStrictOrderedRing R] in
theorem start_mem_points (start step : R) : start ∈ points start step := ⟨0, by simp⟩

omit [FloorRing R] in
/-- Two points with less than a step from the first to the second are in the order of the grid. -/
theorem le_of_sub_lt {a b : R} (hstep : 0 < step) (ha : a ∈ points start step)
    (hb : b ∈ points start step) (h : a - step < b) : a ≤ b := by
  obtain ⟨j, rfl⟩ := ha
  obtain ⟨k, rfl⟩ := hb
  have hmul : (j : R) * step < (k + 1) * step := by linarith
  have hlt : (j : R) < k + 1 := lt_of_mul_lt_mul_right hmul hstep.le
  have hle : j ≤ k := Nat.lt_succ_iff.mp (by exact_mod_cast hlt)
  gcongr

variable {x : R}

theorem nextPoint_mem_points (hstep : 0 < step) (hx : x ∈ points start step) (hnow : x ≤ now) :
    nextPoint now x step ∈ points start step := by
  obtain ⟨k, rfl⟩ := hx
  obtain ⟨n, -, hn⟩ := exists_nat_nextPoint hstep hnow
  refine ⟨k + n, ?_⟩
  rw [hn, Nat.cast_add, add_mul, add_assoc]

/-- From any point of a grid the next point is the first one of the whole grid after `now`. -/
theorem isLeast_nextPoint (hstep : 0 < step) (hx : x ∈ points start step) (hnow : x ≤ now) :
    IsLeast {y ∈ points start step | now < y} (nextPoint now x step) := by
  have hmem := nextPoint_mem_points hstep hx hnow
  refine ⟨⟨hmem, lt_nextPoint hstep⟩, ?_⟩
  rintro y ⟨hy, hlt⟩
  exact le_of_sub_lt hstep hmem hy ((nextPoint_sub_le hstep).trans_lt hlt)

/-- No more than `periods` points of a grid lie up to any point. -/
theorem length_le_of_points (hstep : 0 < step) {xs : List R} (hnodup : xs.Nodup)
    (hpoints : ∀ y ∈ xs, y ∈ points start step ∧ y ≤ now) :
    xs.length ≤ (periods now start step).toNat := by
  have hsub : xs ⊆ (List.range (periods now start step).toNat).map
      fun k : ℕ ↦ start + k * step := by
    intro y hy
    obtain ⟨⟨k, rfl⟩, hle⟩ := hpoints y hy
    have hfloor : (k : ℤ) ≤ ⌊(now - start) / step⌋ := by
      rw [Int.le_floor, le_div_iff₀ hstep, Int.cast_natCast]
      linarith
    refine List.mem_map.mpr ⟨k, List.mem_range.mpr ?_, rfl⟩
    rw [periods]
    omega
  have hlength := (hnodup.subperm hsub).length_le
  rwa [List.length_map, List.length_range] at hlength

end Relay.Foundations.Grid
