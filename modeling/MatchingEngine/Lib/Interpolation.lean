import Mathlib.Algebra.Order.Floor.Semifield
import Mathlib.Order.Monotone.Basic
import Mathlib.Tactic.Linarith
import Mathlib.Tactic.Ring

/-!
# Linear interpolation of a sequence

`interpolate v` is the function that agrees with the sequence `v` at every natural number and is linear
between two neighbours. Where `v` is monotone, so is `interpolate v`: within one unit interval it is a
line that does not fall, and across intervals the values of `v` at the breakpoints lie between.
-/

namespace Interpolation

variable {K : Type*} [Field K] [LinearOrder K] [IsStrictOrderedRing K] [FloorSemiring K]

/-- The sequence `v` at `x`, from the two neighbours of `x`. -/
def interpolate (v : ℕ → K) (x : K) : K :=
  v ⌊x⌋₊ + (x - (⌊x⌋₊ : K)) * (v (⌊x⌋₊ + 1) - v ⌊x⌋₊)

theorem interpolate_natCast (v : ℕ → K) (i : ℕ) : interpolate v (i : K) = v i := by
  simp [interpolate]

omit [IsStrictOrderedRing K] in
/-- Interpolation and a line go together. -/
theorem interpolate_affine (v : ℕ → K) (a b x : K) :
    interpolate (fun i => a * v i + b) x = a * interpolate v x + b := by
  rw [interpolate, interpolate]
  ring

variable {v : ℕ → K} {x y : K}

theorem le_interpolate (hv : Monotone v) (hx : 0 ≤ x) : v ⌊x⌋₊ ≤ interpolate v x := by
  have hfrac : 0 ≤ x - (⌊x⌋₊ : K) := sub_nonneg.mpr (Nat.floor_le hx)
  have hrise : 0 ≤ v (⌊x⌋₊ + 1) - v ⌊x⌋₊ := sub_nonneg.mpr (hv (Nat.le_succ _))
  exact le_add_of_nonneg_right (mul_nonneg hfrac hrise)

theorem interpolate_le (hv : Monotone v) (x : K) : interpolate v x ≤ v (⌊x⌋₊ + 1) := by
  have hfrac : x - (⌊x⌋₊ : K) ≤ 1 := by
    have hlt := Nat.lt_floor_add_one x
    linarith
  have hrise : 0 ≤ v (⌊x⌋₊ + 1) - v ⌊x⌋₊ := sub_nonneg.mpr (hv (Nat.le_succ _))
  calc interpolate v x
      ≤ v ⌊x⌋₊ + 1 * (v (⌊x⌋₊ + 1) - v ⌊x⌋₊) := by
        rw [interpolate]
        gcongr
    _ = v (⌊x⌋₊ + 1) := by rw [one_mul, add_sub_cancel]

theorem interpolate_mono (hv : Monotone v) (hx : 0 ≤ x) (hxy : x ≤ y) :
    interpolate v x ≤ interpolate v y := by
  have hfloor : ⌊x⌋₊ ≤ ⌊y⌋₊ := Nat.floor_mono hxy
  rcases hfloor.eq_or_lt with hsame | hlt
  · -- Both points are on one line.
    have hrise : 0 ≤ v (⌊y⌋₊ + 1) - v ⌊y⌋₊ := sub_nonneg.mpr (hv (Nat.le_succ _))
    rw [interpolate, interpolate, hsame]
    gcongr
  · -- A breakpoint lies between them.
    calc interpolate v x
        ≤ v (⌊x⌋₊ + 1) := interpolate_le hv x
      _ ≤ v ⌊y⌋₊ := hv hlt
      _ ≤ interpolate v y := le_interpolate hv (hx.trans hxy)

/-- Interpolation stays within any bounds of the sequence. -/
theorem interpolate_mem_Icc {a b : K} (hv : Monotone v) (hlower : ∀ i, a ≤ v i)
    (hupper : ∀ i, v i ≤ b) (hx : 0 ≤ x) : a ≤ interpolate v x ∧ interpolate v x ≤ b :=
  ⟨(hlower _).trans (le_interpolate hv hx), (interpolate_le hv x).trans (hupper _)⟩

end Interpolation
