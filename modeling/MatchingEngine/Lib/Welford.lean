import Mathlib.Algebra.BigOperators.Group.List.Basic
import Mathlib.Algebra.BigOperators.Ring.List
import Mathlib.Algebra.Order.BigOperators.Group.List
import Mathlib.Algebra.Order.Ring.Defs
import Mathlib.Tactic.FieldSimp
import Mathlib.Tactic.Ring

/-!
# Streaming moments

Welford's update keeps the number of values seen, their mean and the sum of their squared deviations
from it. The update multiplies the deviation of a new value from the old mean by its deviation from
the new one; `IsMoments` says what the three numbers are, and the update keeps it.
-/

namespace Welford

structure Moments (K : Type*) where
  count : ℕ
  mean : K
  m2 : K

variable {K : Type*} [Field K]

/-- The sum of the squared deviations of `xs` from `c`. -/
def deviation (c : K) (xs : List K) : K :=
  (xs.map fun x => (x - c) ^ 2).sum

namespace Moments

def zero : Moments K where
  count := 0
  mean := 0
  m2 := 0

def add (s : Moments K) (x : K) : Moments K :=
  let mean := s.mean + (x - s.mean) / ((s.count + 1 : ℕ) : K)
  { count := s.count + 1
    mean
    m2 := s.m2 + (x - s.mean) * (x - mean) }

end Moments

/-- The mean is stated without a division, so that it holds of no values too. -/
structure IsMoments (s : Moments K) (xs : List K) : Prop where
  count_eq : s.count = xs.length
  mean_mul : s.mean * (xs.length : K) = xs.sum
  m2_eq : s.m2 = deviation s.mean xs

theorem deviation_concat (c : K) (xs : List K) (x : K) :
    deviation c (xs ++ [x]) = deviation c xs + (x - c) ^ 2 := by
  simp [deviation]

theorem deviation_expand (c : K) (xs : List K) :
    deviation c xs = (xs.map (· ^ 2)).sum - 2 * c * xs.sum + (xs.length : K) * c ^ 2 := by
  induction xs with
  | nil => simp [deviation]
  | cons x xs ih =>
    have hcons : deviation c (x :: xs) = (x - c) ^ 2 + deviation c xs := by simp [deviation]
    rw [hcons, ih, List.map_cons, List.sum_cons, List.sum_cons, List.length_cons]
    push_cast
    ring

/-- The deviation from any point exceeds the deviation from the mean by a multiple of the square of
their distance. -/
theorem deviation_eq {c mean : K} {xs : List K} (hmean : mean * (xs.length : K) = xs.sum) :
    deviation c xs = deviation mean xs + (xs.length : K) * (mean - c) ^ 2 := by
  rw [deviation_expand c, deviation_expand mean, ← hmean]
  ring

namespace IsMoments

variable {s : Moments K} {xs : List K}

theorem zero : IsMoments (Moments.zero : Moments K) [] where
  count_eq := by rfl
  mean_mul := by simp [Moments.zero]
  m2_eq := by simp [Moments.zero, deviation]

theorem add [CharZero K] (h : IsMoments s xs) (x : K) : IsMoments (s.add x) (xs ++ [x]) := by
  obtain ⟨hcount, hmean, hm2⟩ := h
  have hne : ((xs.length + 1 : ℕ) : K) ≠ 0 := Nat.cast_ne_zero.mpr (Nat.succ_ne_zero _)
  have hmean' : (s.add x).mean = s.mean + (x - s.mean) / ((xs.length + 1 : ℕ) : K) := by
    rw [Moments.add, hcount]
  refine ⟨?_, ?_, ?_⟩
  · simp [Moments.add, hcount]
  · rw [hmean', List.length_append, List.length_singleton, List.sum_append, List.sum_singleton,
      add_mul, div_mul_cancel₀ _ hne, ← hmean]
    push_cast
    ring
  · -- Both sides exceed the old deviation by `n / (n + 1)` times the square of `x - mean`.
    have hold : deviation (s.add x).mean xs
        = deviation s.mean xs + (xs.length : K) * (s.mean - (s.add x).mean) ^ 2 :=
      deviation_eq hmean
    have hnew : (s.add x).m2 = s.m2 + (x - s.mean) * (x - (s.add x).mean) := by rfl
    rw [deviation_concat, hold, hnew, hm2, hmean']
    push_cast at hne ⊢
    field_simp
    ring

theorem foldl_add [CharZero K] (h : IsMoments s xs) (ys : List K) :
    IsMoments (ys.foldl Moments.add s) (xs ++ ys) := by
  induction ys generalizing s xs with
  | nil => rwa [List.foldl_nil, List.append_nil]
  | cons y ys ih =>
    have hstep := ih (h.add y)
    rwa [List.append_assoc, List.singleton_append] at hstep

theorem mean_eq [CharZero K] (h : IsMoments s xs) (hne : xs ≠ []) :
    s.mean = xs.sum / (xs.length : K) := by
  have hlength : (xs.length : K) ≠ 0 := Nat.cast_ne_zero.mpr (List.length_pos_iff.mpr hne).ne'
  rw [eq_div_iff hlength, h.mean_mul]

/-- The moments of some values are determined by these. -/
theorem unique [CharZero K] {s' : Moments K} (h : IsMoments s xs) (h' : IsMoments s' xs) (hne : xs ≠ []) :
    s' = s := by
  have hmean : s'.mean = s.mean := by
    rw [h'.mean_eq hne, h.mean_eq hne]
  obtain ⟨count, mean, m2⟩ := s
  obtain ⟨count', mean', m2'⟩ := s'
  rw [Moments.mk.injEq]
  refine ⟨h'.count_eq.trans h.count_eq.symm, hmean, ?_⟩
  have hm2 := h'.m2_eq
  rw [hmean] at hm2
  exact hm2.trans h.m2_eq.symm

theorem perm {ys : List K} (h : IsMoments s xs) (hperm : xs.Perm ys) : IsMoments s ys where
  count_eq := h.count_eq.trans hperm.length_eq
  mean_mul := by rw [← hperm.length_eq, h.mean_mul, hperm.sum_eq]
  m2_eq := h.m2_eq.trans (hperm.map fun x => (x - s.mean) ^ 2).sum_eq

/-- A line takes the mean along, and its slope counts twice in the deviations. -/
theorem affine (h : IsMoments s xs) (a b : K) :
    IsMoments ⟨s.count, a * s.mean + b, a ^ 2 * s.m2⟩ (xs.map fun x => a * x + b) where
  count_eq := by rw [List.length_map, h.count_eq]
  mean_mul := by
    rw [List.length_map, add_mul, mul_assoc, h.mean_mul]
    clear h
    induction xs with
    | nil => simp
    | cons x xs ih =>
      rw [List.map_cons, List.sum_cons, List.sum_cons, List.length_cons, ← ih]
      push_cast
      ring
  m2_eq := by
    change a ^ 2 * s.m2 = ((xs.map fun x => a * x + b).map fun x => (x - (a * s.mean + b)) ^ 2).sum
    rw [h.m2_eq, deviation, List.map_map, ← List.sum_map_mul_left]
    congr 1
    apply List.map_congr_left
    intro x _
    rw [Function.comp]
    ring

end IsMoments

theorem deviation_nonneg [LinearOrder K] [IsStrictOrderedRing K] (c : K) (xs : List K) :
    0 ≤ deviation c xs := by
  refine List.sum_nonneg fun y hy => ?_
  obtain ⟨x, -, rfl⟩ := List.mem_map.mp hy
  exact sq_nonneg (x - c)

end Welford
