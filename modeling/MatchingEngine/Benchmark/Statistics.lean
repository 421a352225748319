import MatchingEngine.Benchmark.Reservoir
import MatchingEngine.Lib.Interpolation
import MatchingEngine.Lib.Welford
import Mathlib.Data.List.GetD
import Mathlib.Data.List.Sort
import Mathlib.Data.Rat.Floor
import Mathlib.Data.Rat.Sqrt
import Mathlib.Order.Bounds.Basic
import Mathlib.Tactic.NormNum

/-!
# The statistics of the accumulator

Over the rationals. The accumulator keeps the streaming moments of what it has seen, and its extremes;
`linear_quantile` is the linear interpolation of the sorted samples, continued by the last of them. The
samples are observations, so the percentiles lie between the extremes although they come from a part of
the observations only.
-/

namespace MatchingEngine

open Interpolation

variable {σ : Type} {reservoir : Reservoir σ} {rng : σ} {lowest largest : ℚ} {xs : List ℚ}

/-! ### The moments and the extremes -/

namespace LatencyAccumulator

def moments (acc : LatencyAccumulator ℚ σ) : Welford.Moments ℚ where
  count := acc.count
  mean := acc.mean
  m2 := acc.m2

theorem moments_create (lowest largest : ℚ) (rng : σ) :
    (create lowest largest rng).moments = Welford.Moments.zero := by
  simp [moments, create, Welford.Moments.zero]

theorem moments_add (acc : LatencyAccumulator ℚ σ) (x : ℚ) :
    (acc.add reservoir x).moments = acc.moments.add x := by
  rw [LatencyAccumulator.add]
  split <;> rfl

theorem isMoments_run (reservoir : Reservoir σ) (lowest largest : ℚ) (rng : σ) (xs : List ℚ) :
    Welford.IsMoments (after reservoir lowest largest rng xs).moments xs := by
  have hfold : (after reservoir lowest largest rng xs).moments
      = xs.foldl Welford.Moments.add Welford.Moments.zero := by
    rw [← moments_create lowest largest rng]
    exact (List.foldl_hom moments fun acc x => (moments_add acc x).symm).symm
  rw [hfold]
  exact Welford.IsMoments.zero.foldl_add xs

theorem min_add (acc : LatencyAccumulator ℚ σ) (x : ℚ) :
    (acc.add reservoir x).min = Min.min x acc.min := by
  rw [LatencyAccumulator.add, min_def_lt]
  split <;> rfl

theorem max_add (acc : LatencyAccumulator ℚ σ) (x : ℚ) :
    (acc.add reservoir x).max = Max.max x acc.max := by
  rw [LatencyAccumulator.add, max_comm, max_def_lt]
  split <;> rfl

end LatencyAccumulator

theorem insert_mem_concat (bound : ℚ) (xs : List ℚ) (x : ℚ) :
    insert bound {y | y ∈ xs ++ [x]} = insert x (insert bound {y | y ∈ xs}) := by
  ext y
  simp only [Set.mem_insert_iff, Set.mem_ofPred_eq, List.mem_append, List.mem_singleton]
  tauto

/-- The extremes start at the sentinels, so these count as seen. -/
theorem isLeast_run (reservoir : Reservoir σ) (lowest largest : ℚ) (rng : σ) (xs : List ℚ) :
    IsLeast (insert largest {x | x ∈ xs})
      (LatencyAccumulator.after reservoir lowest largest rng xs).min := by
  induction xs using List.reverseRecOn with
  | nil => simp [LatencyAccumulator.after, LatencyAccumulator.create]
  | append_singleton xs x ih =>
    rw [LatencyAccumulator.after_concat, LatencyAccumulator.min_add, insert_mem_concat]
    exact ih.insert x

theorem isGreatest_run (reservoir : Reservoir σ) (lowest largest : ℚ) (rng : σ) (xs : List ℚ) :
    IsGreatest (insert lowest {x | x ∈ xs})
      (LatencyAccumulator.after reservoir lowest largest rng xs).max := by
  induction xs using List.reverseRecOn with
  | nil => simp [LatencyAccumulator.after, LatencyAccumulator.create]
  | append_singleton xs x ih =>
    rw [LatencyAccumulator.after_concat, LatencyAccumulator.max_add, insert_mem_concat]
    exact ih.insert x

/-- A bound above every element of a set that has some is not its least. -/
theorem isLeast_of_insert {α : Type} [LinearOrder α] {s : Set α} {a bound : α}
    (h : IsLeast (insert bound s) a) (hne : s.Nonempty) (hbound : ∀ x ∈ s, x < bound) :
    IsLeast s a := by
  refine ⟨?_, fun x hx => h.2 (Set.mem_insert_of_mem bound hx)⟩
  rcases Set.mem_insert_iff.mp h.1 with rfl | hmem
  · obtain ⟨x, hx⟩ := hne
    exact absurd (h.2 (Set.mem_insert_of_mem a hx)) (hbound x hx).not_ge
  · exact hmem

theorem isGreatest_of_insert {α : Type} [LinearOrder α] {s : Set α} {a bound : α}
    (h : IsGreatest (insert bound s) a) (hne : s.Nonempty) (hbound : ∀ x ∈ s, bound < x) :
    IsGreatest s a :=
  @isLeast_of_insert αᵒᵈ _ s a bound h hne hbound

/-! ### The quantile -/

section Quantile

/-- A vector as a sequence that keeps its last element. -/
def saturated (sorted : List ℚ) (i : ℕ) : ℚ :=
  sorted.getD (min i (sorted.length - 1)) 0

variable {sorted : List ℚ} {q : ℚ}

theorem getElem?_saturated (hne : sorted ≠ []) (i : ℕ) :
    sorted[min i (sorted.length - 1)]? = some (saturated sorted i) := by
  have hlength := List.length_pos_iff.mpr hne
  have hlt : min i (sorted.length - 1) < sorted.length := by omega
  rw [saturated, List.getD_eq_getElem _ _ hlt, List.getElem?_eq_getElem hlt]

theorem saturated_mem (hne : sorted ≠ []) (i : ℕ) : saturated sorted i ∈ sorted :=
  List.mem_of_getElem? (getElem?_saturated hne i)

theorem monotone_saturated (hne : sorted ≠ []) (hsorted : sorted.Pairwise (· ≤ ·)) :
    Monotone (saturated sorted) := by
  intro i j hij
  have hlength := List.length_pos_iff.mpr hne
  have hj : min j (sorted.length - 1) < sorted.length := by omega
  have hle : min i (sorted.length - 1) ≤ min j (sorted.length - 1) := by omega
  rw [saturated, saturated, List.getD_eq_getElem _ _ hj, List.getD_eq_getElem _ _ (hle.trans_lt hj)]
  exact hsorted.sortedLE.getElem_le_getElem_of_le hle

theorem clamp_eq (q : ℚ) :
    Statistics.clamp q ((0 : Nat) : ℚ) ((1 : Nat) : ℚ) = max 0 (min q 1) := by
  rw [Statistics.clamp, Nat.cast_zero, Nat.cast_one]
  split
  case isTrue hlow => rw [min_eq_left (by linarith), max_eq_left hlow.le]
  case isFalse hlow =>
    split
    case isTrue hhigh => rw [min_eq_right hhigh.le, max_eq_right zero_le_one]
    case isFalse hhigh => rw [min_eq_left (not_lt.mp hhigh), max_eq_right (not_lt.mp hlow)]

/-- Where the quantile of `q` is read, of a vector of `length` elements. -/
def quantilePos (length : ℕ) (q : ℚ) : ℚ :=
  ((length - 1 : ℕ) : ℚ) * max 0 (min q 1)

theorem quantilePos_nonneg (length : ℕ) (q : ℚ) : 0 ≤ quantilePos length q :=
  mul_nonneg (Nat.cast_nonneg _) (le_max_left _ _)

theorem quantilePos_mono (length : ℕ) : Monotone (quantilePos length) := by
  intro q q' hq
  rw [quantilePos, quantilePos]
  gcongr

theorem floor_quantilePos_le (length : ℕ) (q : ℚ) : ⌊quantilePos length q⌋₊ ≤ length - 1 := by
  refine Nat.floor_le_of_le ?_
  have hone : max 0 (min q 1) ≤ 1 := max_le zero_le_one (min_le_right _ _)
  exact mul_le_of_le_one_right (Nat.cast_nonneg _) hone

/-- The quantile as an interpolation. -/
def quantile (sorted : List ℚ) (q : ℚ) : ℚ :=
  interpolate (saturated sorted) (quantilePos sorted.length q)

/-- No read of `linear_quantile` is outside the vector. -/
theorem linearQuantile_eq (hne : sorted ≠ []) (q : ℚ) :
    Statistics.linearQuantile Nat.floor sorted q = some (quantile sorted q) := by
  have hempty : sorted.isEmpty = false := by
    rw [List.isEmpty_eq_false_iff]
    exact hne
  rw [Statistics.linearQuantile, hempty, if_neg Bool.false_ne_true]
  split
  case isTrue hone =>
    obtain ⟨x, rfl⟩ := List.length_eq_one_iff.mp hone
    simp [quantile, interpolate, saturated, quantilePos]
  case isFalse hone =>
    have hlo := floor_quantilePos_le sorted.length q
    have hbelow : sorted[⌊quantilePos sorted.length q⌋₊]?
        = some (saturated sorted ⌊quantilePos sorted.length q⌋₊) := by
      rw [← getElem?_saturated hne, min_eq_left hlo]
    have habove := getElem?_saturated hne (⌊quantilePos sorted.length q⌋₊ + 1)
    rw [clamp_eq]
    change (sorted[⌊quantilePos sorted.length q⌋₊]?.bind fun below =>
      (sorted[min (⌊quantilePos sorted.length q⌋₊ + 1) (sorted.length - 1)]?.bind fun above => _)) = _
    rw [hbelow, habove]
    rfl

theorem monotone_quantile (hne : sorted ≠ []) (hsorted : sorted.Pairwise (· ≤ ·)) :
    Monotone (quantile sorted) := fun q _ hq =>
  interpolate_mono (monotone_saturated hne hsorted) (quantilePos_nonneg _ q) (quantilePos_mono _ hq)

/-- A quantile stays within any bounds of the elements. -/
theorem quantile_mem_Icc (hne : sorted ≠ []) (hsorted : sorted.Pairwise (· ≤ ·)) {a b : ℚ}
    (hbounds : ∀ x ∈ sorted, a ≤ x ∧ x ≤ b) (q : ℚ) :
    a ≤ quantile sorted q ∧ quantile sorted q ≤ b :=
  interpolate_mem_Icc (monotone_saturated hne hsorted)
    (fun i => (hbounds _ (saturated_mem hne i)).1) (fun i => (hbounds _ (saturated_mem hne i)).2)
    (quantilePos_nonneg _ q)

/-- The element at index `i` is the quantile of its share of the last index. -/
theorem quantile_index (hlength : 1 < sorted.length) {i : ℕ} (hi : i < sorted.length) :
    quantile sorted ((i : ℚ) / ((sorted.length : ℚ) - 1)) = sorted[i] := by
  have hcast : ((sorted.length - 1 : ℕ) : ℚ) = (sorted.length : ℚ) - 1 := by
    rw [Nat.cast_sub hlength.le, Nat.cast_one]
  have hpositive : (0 : ℚ) < (sorted.length : ℚ) - 1 := by
    rw [← hcast]
    exact Nat.cast_pos.mpr (by omega)
  have hone : (i : ℚ) / ((sorted.length : ℚ) - 1) ≤ 1 := by
    rw [div_le_one hpositive, ← hcast]
    exact Nat.cast_le.mpr (by omega)
  have hpos : quantilePos sorted.length ((i : ℚ) / ((sorted.length : ℚ) - 1)) = (i : ℚ) := by
    rw [quantilePos, min_eq_left hone, max_eq_right (div_nonneg (Nat.cast_nonneg i) hpositive.le),
      hcast, mul_div_cancel₀ _ hpositive.ne']
  rw [quantile, hpos, interpolate_natCast, saturated, min_eq_left (by omega), List.getD_eq_getElem _ _ hi]

end Quantile

/-! ### The snapshot -/

section Snapshot

variable {acc : LatencyAccumulator ℚ σ} {sqrt : ℚ → ℚ}

/-- The samples as `snapshot` sorts them. -/
def LatencyAccumulator.sorted (acc : LatencyAccumulator ℚ σ) : List ℚ :=
  acc.samples.mergeSort fun a b => !decide (b < a)

theorem LatencyAccumulator.pairwise_sorted (acc : LatencyAccumulator ℚ σ) :
    acc.sorted.Pairwise (· ≤ ·) := by
  have hle : (fun a b : ℚ => !decide (b < a)) = fun a b => decide (a ≤ b) := by
    funext a b
    simp [← not_lt]
  rw [LatencyAccumulator.sorted, hle]
  exact List.pairwise_mergeSort' (· ≤ ·) acc.samples

theorem LatencyAccumulator.mem_sorted {x : ℚ} : x ∈ acc.sorted ↔ x ∈ acc.samples :=
  List.mem_mergeSort

/-- `s` shows the accumulator, with the percentiles of its samples where it has some. -/
structure Shows (sqrt : ℚ → ℚ) (acc : LatencyAccumulator ℚ σ) (s : LatencyStats ℚ) : Prop where
  sampleCount_eq : s.sampleCount = acc.count
  meanNs_eq : s.meanNs = acc.mean
  stddevNs_eq : s.stddevNs =
    if 1 < acc.count then sqrt (acc.m2 / ((acc.count - 1 : ℕ) : ℚ)) else 0
  minNs_eq : s.minNs = acc.min
  maxNs_eq : s.maxNs = acc.max
  p10Ns_eq : acc.samples ≠ [] → s.p10Ns = quantile acc.sorted 0.10
  p50Ns_eq : acc.samples ≠ [] → s.p50Ns = quantile acc.sorted 0.50
  p95Ns_eq : acc.samples ≠ [] → s.p95Ns = quantile acc.sorted 0.95
  p99Ns_eq : acc.samples ≠ [] → s.p99Ns = quantile acc.sorted 0.99
  p999Ns_eq : acc.samples ≠ [] → s.p999Ns = quantile acc.sorted 0.999

theorem LatencyAccumulator.sorted_ne_nil (hne : acc.samples ≠ []) : acc.sorted ≠ [] := by
  obtain ⟨x, hx⟩ := List.exists_mem_of_ne_nil _ hne
  exact List.ne_nil_of_mem (LatencyAccumulator.mem_sorted.mpr hx)

/-- An accumulator with observations, none of them a sentinel, is shown by its snapshot. -/
theorem snapshot_shows (hcount : acc.count ≠ 0) (hmin : acc.min ≠ largest)
    (hmax : acc.max ≠ lowest) :
    ∃ s, acc.snapshot lowest largest sqrt Nat.floor = some s ∧ Shows sqrt acc s := by
  rw [LatencyAccumulator.snapshot, if_neg hcount, if_neg hmin, if_neg hmax]
  rcases eq_or_ne acc.samples [] with hempty | hne
  · have hshows : ∀ {P : Prop}, acc.samples ≠ [] → P := fun h => absurd hempty h
    rw [hempty]
    exact ⟨_, rfl, rfl, rfl, rfl, rfl, rfl, hshows, hshows, hshows, hshows, hshows⟩
  · have hread := linearQuantile_eq (LatencyAccumulator.sorted_ne_nil hne)
    rw [LatencyAccumulator.sorted] at hread
    rw [if_neg (by simpa using hne)]
    simp only [hread, Option.bind_eq_bind, Option.bind_some]
    exact ⟨_, rfl, rfl, rfl, rfl, rfl, rfl, fun _ => rfl, fun _ => rfl, fun _ => rfl,
      fun _ => rfl, fun _ => rfl⟩

end Snapshot

section Run

variable (reservoir : Reservoir σ) (rng : σ)

theorem isLeast_min (hne : xs ≠ []) (hrange : ∀ x ∈ xs, lowest < x ∧ x < largest) :
    IsLeast {x | x ∈ xs}
      (LatencyAccumulator.after reservoir lowest largest rng xs).min :=
  isLeast_of_insert (isLeast_run reservoir lowest largest rng xs)
    (List.exists_mem_of_ne_nil xs hne) fun x hx => (hrange x hx).2

theorem isGreatest_max (hne : xs ≠ []) (hrange : ∀ x ∈ xs, lowest < x ∧ x < largest) :
    IsGreatest {x | x ∈ xs}
      (LatencyAccumulator.after reservoir lowest largest rng xs).max :=
  isGreatest_of_insert (isGreatest_run reservoir lowest largest rng xs)
    (List.exists_mem_of_ne_nil xs hne) fun x hx => (hrange x hx).1

/-- The accumulator that has seen `xs` is shown by its snapshot. -/
theorem snapshot_run (sqrt : ℚ → ℚ) (hne : xs ≠ [])
    (hrange : ∀ x ∈ xs, lowest < x ∧ x < largest) :
    ∃ s, (LatencyAccumulator.after reservoir lowest largest rng xs).snapshot lowest largest sqrt
        Nat.floor = some s ∧
      Shows sqrt (LatencyAccumulator.after reservoir lowest largest rng xs) s := by
  have hcount := (Sampled.run reservoir lowest largest rng xs).count_eq
  have hmin := (isLeast_min reservoir rng hne hrange).1
  have hmax := (isGreatest_max reservoir rng hne hrange).1
  refine snapshot_shows ?_ (hrange _ hmin).2.ne (hrange _ hmax).1.ne'
  rw [hcount]
  exact (List.length_pos_iff.mpr hne).ne'

/-- The mean, the sum of squared deviations and the extremes of a snapshot are those of all the
observations. -/
theorem snapshot_moments (sqrt : ℚ → ℚ) (hne : xs ≠ [])
    (hrange : ∀ x ∈ xs, lowest < x ∧ x < largest) :
    ∃ s m2, (LatencyAccumulator.after reservoir lowest largest rng xs).snapshot lowest largest sqrt
        Nat.floor = some s ∧
      (LatencyAccumulator.after reservoir lowest largest rng xs).m2 = m2 ∧
      s.sampleCount = xs.length ∧
      s.meanNs = xs.sum / (xs.length : ℚ) ∧
      m2 = (xs.map fun x => (x - s.meanNs) ^ 2).sum ∧
      0 ≤ m2 ∧
      (1 < xs.length → s.stddevNs = sqrt (m2 / ((xs.length : ℚ) - 1))) ∧
      IsLeast {x | x ∈ xs} s.minNs ∧ IsGreatest {x | x ∈ xs} s.maxNs := by
  obtain ⟨s, hs, hshows⟩ := snapshot_run reservoir rng sqrt hne hrange
  set acc := LatencyAccumulator.after reservoir lowest largest rng xs
  have hmoments : Welford.IsMoments acc.moments xs :=
    LatencyAccumulator.isMoments_run reservoir lowest largest rng xs
  have hlength : acc.count = xs.length := hmoments.count_eq
  have hm2 : acc.m2 = Welford.deviation acc.mean xs := hmoments.m2_eq
  refine ⟨s, acc.m2, hs, rfl, hshows.sampleCount_eq.trans hlength,
    hshows.meanNs_eq.trans (hmoments.mean_eq hne), ?_, ?_, ?_, ?_, ?_⟩
  · rw [hshows.meanNs_eq]
    exact hm2
  · rw [hm2]
    exact Welford.deviation_nonneg _ xs
  · intro hmany
    rw [hshows.stddevNs_eq, hlength, if_pos hmany, Nat.cast_sub hmany.le, Nat.cast_one]
  · rw [hshows.minNs_eq]
    exact isLeast_min reservoir rng hne hrange
  · rw [hshows.maxNs_eq]
    exact isGreatest_max reservoir rng hne hrange

theorem snapshot_moments_three :
    ∃ s, (LatencyAccumulator.after coin 0 100 0 [(1 : ℚ), 2, 3]).snapshot 0 100 Rat.sqrt Nat.floor = some s ∧
      s.meanNs = 2 ∧ s.stddevNs = 1 := by
  have hrange : ∀ x ∈ [(1 : ℚ), 2, 3], 0 < x ∧ x < 100 := by norm_num
  obtain ⟨s, m2, hs, -, -, hmean, hm2, -, hstddev, -, -⟩ :=
    snapshot_moments coin 0 Rat.sqrt (by decide) hrange
  have hmean' : s.meanNs = 2 := by
    rw [hmean]
    norm_num
  have hvariance : m2 / (([(1 : ℚ), 2, 3].length : ℚ) - 1) = 1 * 1 := by
    rw [hm2, hmean']
    norm_num
  refine ⟨s, hs, hmean', ?_⟩
  rw [hstddev (by decide), hvariance, Rat.sqrt_eq, abs_one]

/-- The percentiles of a snapshot are ordered and between its extremes, and the quantile they are read
from is one function of `q`, monotone and equal to the elements at their shares of the last index. -/
theorem snapshot_percentiles (sqrt : ℚ → ℚ) (hcap : 1 ≤ reservoir.maxSamples) (hne : xs ≠ [])
    (hrange : ∀ x ∈ xs, lowest < x ∧ x < largest) :
    (∃ s, (LatencyAccumulator.after reservoir lowest largest rng xs).snapshot lowest largest sqrt
        Nat.floor = some s ∧
      s.minNs ≤ s.p10Ns ∧ s.p10Ns ≤ s.p50Ns ∧ s.p50Ns ≤ s.p95Ns ∧ s.p95Ns ≤ s.p99Ns ∧
      s.p99Ns ≤ s.p999Ns ∧ s.p999Ns ≤ s.maxNs) ∧
    ∀ sorted : List ℚ, sorted ≠ [] → sorted.Pairwise (· ≤ ·) → ∃ f : ℚ → ℚ,
      (∀ q, Statistics.linearQuantile Nat.floor sorted q = some (f q)) ∧ Monotone f ∧
      (∀ q, f q = f (max 0 (min q 1))) ∧
      ∀ i (hi : i < sorted.length), 1 < sorted.length →
        f ((i : ℚ) / ((sorted.length : ℚ) - 1)) = sorted[i] := by
  constructor
  · obtain ⟨s, hs, hshows⟩ := snapshot_run reservoir rng sqrt hne hrange
    have hsampled := Sampled.run reservoir lowest largest rng xs
    set acc := LatencyAccumulator.after reservoir lowest largest rng xs
    have hstored : acc.samples ≠ [] := by
      have hlength := List.length_pos_iff.mpr hne
      rw [← List.length_pos_iff, hsampled.length_samples]
      omega
    have hsorted := LatencyAccumulator.sorted_ne_nil hstored
    have hmono := monotone_quantile hsorted acc.pairwise_sorted
    have hextremes : ∀ x ∈ acc.sorted, acc.min ≤ x ∧ x ≤ acc.max := by
      intro x hx
      have hmem := hsampled.mem_of_mem_samples (LatencyAccumulator.mem_sorted.mp hx)
      exact ⟨(isLeast_min reservoir rng hne hrange).2 hmem,
        (isGreatest_max reservoir rng hne hrange).2 hmem⟩
    have hbounds := quantile_mem_Icc hsorted acc.pairwise_sorted hextremes
    refine ⟨s, hs, ?_⟩
    rw [hshows.minNs_eq, hshows.maxNs_eq, hshows.p10Ns_eq hstored, hshows.p50Ns_eq hstored,
      hshows.p95Ns_eq hstored, hshows.p99Ns_eq hstored, hshows.p999Ns_eq hstored]
    exact ⟨(hbounds _).1, hmono (by norm_num), hmono (by norm_num), hmono (by norm_num),
      hmono (by norm_num), (hbounds _).2⟩
  · intro sorted hsorted hpairwise
    refine ⟨quantile sorted, linearQuantile_eq hsorted, monotone_quantile hsorted hpairwise, ?_,
      fun i hi hlength => quantile_index hlength hi⟩
    intro q
    have hclamped : max 0 (min (max 0 (min q 1)) 1) = max 0 (min q 1) := by
      rw [min_eq_left (max_le zero_le_one (min_le_right q 1)), max_eq_right (le_max_left _ _)]
    rw [quantile, quantile, quantilePos, quantilePos, hclamped]

theorem snapshot_percentiles_three :
    (∃ s, (LatencyAccumulator.after coin 0 100 0 [(3 : ℚ), 1, 2]).snapshot 0 100 Rat.sqrt
        Nat.floor = some s ∧
      s.minNs ≤ s.p10Ns ∧ s.p999Ns ≤ s.maxNs) ∧
    ∃ f : ℚ → ℚ, (∀ q, Statistics.linearQuantile Nat.floor [1, 2, 3] q = some (f q)) ∧
      Monotone f ∧ f (1 / 2) = 2 := by
  have hrange : ∀ x ∈ [(3 : ℚ), 1, 2], 0 < x ∧ x < 100 := by norm_num
  obtain ⟨⟨s, hs, hfirst, -, -, -, -, hlast⟩, hquantile⟩ :=
    snapshot_percentiles coin 0 Rat.sqrt (by decide) (by decide) hrange
  obtain ⟨f, hf, hmono, -, hindex⟩ := hquantile [1, 2, 3] (by decide) (by norm_num)
  refine ⟨⟨s, hs, hfirst, hlast⟩, f, hf, hmono, ?_⟩
  have hmiddle := hindex 1 (by decide) (by decide)
  norm_num at hmiddle ⊢
  exact hmiddle

end Run

end MatchingEngine
