import MatchingEngine.Benchmark.Statistics

/-!
# What a snapshot depends on

Not on the order in which the observations came, except for the percentiles where some observations have
been dropped; and not on the unit or the origin of the clock that was read: in another unit, from another
origin, every time in the snapshot is the same time, although which observations are kept is drawn.
-/

namespace MatchingEngine

open Interpolation ReservoirSampling

attribute [ext] LatencyStats

variable {σ : Type} {reservoir : Reservoir σ} {rng : σ} {lowest largest : ℚ} {xs ys : List ℚ}
  {acc acc' : LatencyAccumulator ℚ σ}

/-! ### Another order -/

/-- As long as none is dropped the samples are the observations. -/
theorem samples_of_le {ρ : Type} {acc : LatencyAccumulator ρ σ} {xs : List ρ}
    (h : Sampled reservoir rng acc xs) (hle : xs.length ≤ reservoir.maxSamples) : acc.samples = xs := by
  have hsamples := h.samples_eq
  rw [Reservoir.retained, positions_fill hle] at hsamples
  apply List.map_injective_iff.mpr (Option.some_injective ρ)
  rw [hsamples]
  apply List.ext_getElem?
  intro i
  rw [List.getElem?_map, List.getElem?_map]
  by_cases hi : i < xs.length
  · rw [List.getElem?_range hi, List.getElem?_eq_getElem hi]
    exact congrArg some (List.getElem?_eq_getElem hi)
  · rw [List.getElem?_eq_none (by simpa using hi), List.getElem?_eq_none (by simpa using hi)]
    rfl

/-- Sorting forgets the order. -/
theorem sorted_perm (hperm : acc.samples.Perm acc'.samples) : acc.sorted = acc'.sorted := by
  have hsorted : acc.sorted.Perm acc'.sorted :=
    (List.mergeSort_perm ..).trans (hperm.trans (List.mergeSort_perm ..).symm)
  exact hsorted.eq_of_pairwise' acc.pairwise_sorted acc'.pairwise_sorted

/-- **The order of the observations does not matter**, except for the percentiles once there are more of
them than are kept. -/
theorem snapshot_perm (reservoir : Reservoir σ) (rng : σ) (sqrt : ℚ → ℚ) (hne : xs ≠ [])
    (hrange : ∀ x ∈ xs, lowest < x ∧ x < largest) (hperm : xs.Perm ys) :
    ∃ s s', (LatencyAccumulator.after reservoir lowest largest rng xs).snapshot lowest largest sqrt
        Nat.floor = some s ∧
      (LatencyAccumulator.after reservoir lowest largest rng ys).snapshot lowest largest sqrt
        Nat.floor = some s' ∧
      s'.sampleCount = s.sampleCount ∧ s'.meanNs = s.meanNs ∧ s'.stddevNs = s.stddevNs ∧
      s'.minNs = s.minNs ∧ s'.maxNs = s.maxNs ∧ (xs.length ≤ reservoir.maxSamples → s' = s) := by
  have hne' : ys ≠ [] := fun hnil => hne (hnil ▸ hperm).eq_nil
  have hrange' : ∀ y ∈ ys, lowest < y ∧ y < largest := fun y hy => hrange y (hperm.mem_iff.mpr hy)
  obtain ⟨s, hs, hshows⟩ := snapshot_run reservoir rng sqrt hne hrange
  obtain ⟨s', hs', hshows'⟩ := snapshot_run reservoir rng sqrt hne' hrange'
  have hleast := isLeast_min reservoir rng hne hrange
  have hleast' := isLeast_min reservoir rng hne' hrange'
  have hgreatest := isGreatest_max reservoir rng hne hrange
  have hgreatest' := isGreatest_max reservoir rng hne' hrange'
  have hmoments := LatencyAccumulator.isMoments_run reservoir lowest largest rng xs
  have hmoments' := LatencyAccumulator.isMoments_run reservoir lowest largest rng ys
  have hsampled := Sampled.run reservoir lowest largest rng xs
  have hsampled' := Sampled.run reservoir lowest largest rng ys
  set acc := LatencyAccumulator.after reservoir lowest largest rng xs
  set acc' := LatencyAccumulator.after reservoir lowest largest rng ys
  have hset : {x | x ∈ ys} = {x | x ∈ xs} := by
    ext x
    exact hperm.symm.mem_iff
  have hsame : acc'.moments = acc.moments := (hmoments.perm hperm).unique hmoments' hne'
  have hcount : acc'.count = acc.count := congrArg Welford.Moments.count hsame
  have hm2 : acc'.m2 = acc.m2 := congrArg Welford.Moments.m2 hsame
  have hmean : s'.meanNs = s.meanNs := by
    rw [hshows'.meanNs_eq, hshows.meanNs_eq]
    exact congrArg Welford.Moments.mean hsame
  have hstddev : s'.stddevNs = s.stddevNs := by
    rw [hshows'.stddevNs_eq, hshows.stddevNs_eq, hcount, hm2]
  have hmin : s'.minNs = s.minNs := by
    rw [hshows'.minNs_eq, hshows.minNs_eq]
    exact (hset ▸ hleast').unique hleast
  have hmax : s'.maxNs = s.maxNs := by
    rw [hshows'.maxNs_eq, hshows.maxNs_eq]
    exact (hset ▸ hgreatest').unique hgreatest
  have hsampleCount : s'.sampleCount = s.sampleCount := by
    rw [hshows'.sampleCount_eq, hshows.sampleCount_eq, hcount]
  refine ⟨s, s', hs, hs', hsampleCount, hmean, hstddev, hmin, hmax, fun hle => ?_⟩
  have hsamples := samples_of_le hsampled hle
  have hsamples' := samples_of_le hsampled' (hperm.length_eq ▸ hle)
  have hsorted : acc'.sorted = acc.sorted := sorted_perm (hsamples' ▸ hsamples ▸ hperm.symm)
  rw [← hsamples] at hne
  rw [← hsamples'] at hne'
  ext1
  · exact hmean
  · exact hstddev
  · exact hmin
  · exact hmax
  · rw [hshows'.p10Ns_eq hne', hshows.p10Ns_eq hne, hsorted]
  · rw [hshows'.p50Ns_eq hne', hshows.p50Ns_eq hne, hsorted]
  · rw [hshows'.p95Ns_eq hne', hshows.p95Ns_eq hne, hsorted]
  · rw [hshows'.p99Ns_eq hne', hshows.p99Ns_eq hne, hsorted]
  · rw [hshows'.p999Ns_eq hne', hshows.p999Ns_eq hne, hsorted]
  · exact hsampleCount

theorem snapshot_perm_three :
    ∃ s, (LatencyAccumulator.after ⟨4, fun _ rng => (0, rng)⟩ 0 100 () [(3 : ℚ), 1, 2]).snapshot 0 100
        Rat.sqrt Nat.floor = some s ∧
      (LatencyAccumulator.after ⟨4, fun _ rng => (0, rng)⟩ 0 100 () [(1 : ℚ), 2, 3]).snapshot 0 100
        Rat.sqrt Nat.floor = some s := by
  obtain ⟨s, s', hs, hs', -, -, -, -, -, hsame⟩ := snapshot_perm ⟨4, fun _ rng => (0, rng)⟩ ()
    Rat.sqrt
    (show [(3 : ℚ), 1, 2] ≠ [] by decide) (show ∀ x ∈ [(3 : ℚ), 1, 2], 0 < x ∧ x < 100 by norm_num)
    (show [(3 : ℚ), 1, 2].Perm [1, 2, 3] by decide)
  exact ⟨s, hs, hsame (by decide) ▸ hs'⟩

/-! ### Another clock -/

/-- The times of `s'` are those of `s` read off another clock. -/
structure ReadsAs (f : ℚ → ℚ) (s s' : LatencyStats ℚ) : Prop where
  meanNs : s'.meanNs = f s.meanNs
  minNs : s'.minNs = f s.minNs
  maxNs : s'.maxNs = f s.maxNs
  p10Ns : s'.p10Ns = f s.p10Ns
  p50Ns : s'.p50Ns = f s.p50Ns
  p95Ns : s'.p95Ns = f s.p95Ns
  p99Ns : s'.p99Ns = f s.p99Ns
  p999Ns : s'.p999Ns = f s.p999Ns

/-- Which observations are kept does not depend on their values. -/
theorem samples_map {ρ : Type} {acc acc' : LatencyAccumulator ρ σ} {xs : List ρ} {f : ρ → ρ}
    (h : Sampled reservoir rng acc xs) (h' : Sampled reservoir rng acc' (xs.map f)) :
    acc'.samples = acc.samples.map f := by
  apply List.map_injective_iff.mpr (Option.some_injective ρ)
  calc acc'.samples.map some
      = (reservoir.retained rng xs.length).map ((xs.map f)[·]?) := by
        rw [h'.samples_eq, List.length_map]
    _ = ((reservoir.retained rng xs.length).map (xs[·]?)).map (Option.map f) := by
        rw [List.map_map]
        exact List.map_congr_left fun i _ => List.getElem?_map ..
    _ = (acc.samples.map f).map some := by
        rw [← h.samples_eq, List.map_map, List.map_map]
        rfl

theorem sorted_map {f : ℚ → ℚ} (hf : ∀ x y, f x < f y ↔ x < y) (h : acc'.samples = acc.samples.map f) :
    acc'.sorted = acc.sorted.map f := by
  rw [LatencyAccumulator.sorted, LatencyAccumulator.sorted, h]
  refine (List.map_mergeSort fun x _ y _ => ?_).symm
  simp only [hf]

theorem quantile_affine {sorted : List ℚ} (hne : sorted ≠ []) (a b q : ℚ) :
    quantile (sorted.map fun x => a * x + b) q = a * quantile sorted q + b := by
  have hsaturated : saturated (sorted.map fun x => a * x + b) = fun i => a * saturated sorted i + b := by
    funext i
    have hne' : sorted.map (fun x => a * x + b) ≠ [] := by simpa using hne
    have hget := getElem?_saturated hne' i
    rw [List.length_map, List.getElem?_map, getElem?_saturated hne] at hget
    exact (Option.some.inj hget).symm
  rw [quantile, quantile, hsaturated, List.length_map, interpolate_affine]

/-- The extremes of the readings off another clock. -/
theorem extremes_map (reservoir : Reservoir σ) (rng : σ) (hne : xs ≠ []) {f : ℚ → ℚ} (hf : Monotone f)
    (hrange : ∀ x ∈ xs, lowest < x ∧ x < largest) (hrange' : ∀ y ∈ xs.map f, lowest < y ∧ y < largest) :
    (LatencyAccumulator.after reservoir lowest largest rng (xs.map f)).min
        = f (LatencyAccumulator.after reservoir lowest largest rng xs).min ∧
      (LatencyAccumulator.after reservoir lowest largest rng (xs.map f)).max
        = f (LatencyAccumulator.after reservoir lowest largest rng xs).max := by
  have hne' : xs.map f ≠ [] := by simpa using hne
  have hset : {y | y ∈ xs.map f} = f '' {x | x ∈ xs} := by
    ext y
    exact List.mem_map
  have hleast := isLeast_min reservoir rng hne' hrange'
  have hgreatest := isGreatest_max reservoir rng hne' hrange'
  rw [hset] at hleast hgreatest
  exact ⟨hleast.unique (hf.map_isLeast (isLeast_min reservoir rng hne hrange)),
    hgreatest.unique (hf.map_isGreatest (isGreatest_max reservoir rng hne hrange))⟩

/-- **The unit and the origin of the clock do not matter.** Whatever is drawn, with each observation
read off another clock the snapshot shows the same times read off that clock, and `sqrt` is taken of the
same variance in the other unit. -/
theorem snapshot_affine (reservoir : Reservoir σ) (rng : σ) (sqrt : ℚ → ℚ)
    (hcap : 1 ≤ reservoir.maxSamples) (hne : xs ≠ []) {a b : ℚ} (ha : 0 < a)
    (hrange : ∀ x ∈ xs, lowest < x ∧ x < largest)
    (hrange' : ∀ x ∈ xs, lowest < a * x + b ∧ a * x + b < largest) :
    ∃ s s', (LatencyAccumulator.after reservoir lowest largest rng xs).snapshot lowest largest sqrt
        Nat.floor = some s ∧
      (LatencyAccumulator.after reservoir lowest largest rng (xs.map fun x => a * x + b)).snapshot lowest
        largest sqrt Nat.floor = some s' ∧
      s'.sampleCount = s.sampleCount ∧ ReadsAs (fun x => a * x + b) s s' ∧
      (1 < xs.length → ∃ variance, s.stddevNs = sqrt variance ∧ s'.stddevNs = sqrt (a ^ 2 * variance)) := by
  have hlt : ∀ x y, a * x + b < a * y + b ↔ x < y := fun x y => by
    rw [add_lt_add_iff_right, mul_lt_mul_iff_right₀ ha]
  have hmono : StrictMono fun x => a * x + b := fun x y hxy => (hlt x y).mpr hxy
  have hne' : (xs.map fun x => a * x + b) ≠ [] := by simpa using hne
  have hrange'' : ∀ y ∈ xs.map fun x => a * x + b, lowest < y ∧ y < largest := by
    intro y hy
    obtain ⟨x, hx, rfl⟩ := List.mem_map.mp hy
    exact hrange' x hx
  obtain ⟨s, hs, hshows⟩ := snapshot_run reservoir rng sqrt hne hrange
  obtain ⟨s', hs', hshows'⟩ := snapshot_run reservoir rng sqrt hne' hrange''
  obtain ⟨hmin, hmax⟩ := extremes_map reservoir rng hne hmono.monotone hrange hrange''
  have hmoments := LatencyAccumulator.isMoments_run reservoir lowest largest rng xs
  have hmoments' := LatencyAccumulator.isMoments_run reservoir lowest largest rng
    (xs.map fun x => a * x + b)
  have hsampled := Sampled.run reservoir lowest largest rng xs
  have hsamples := samples_map hsampled
    (Sampled.run reservoir lowest largest rng (xs.map fun x => a * x + b))
  set acc := LatencyAccumulator.after reservoir lowest largest rng xs
  set acc' := LatencyAccumulator.after reservoir lowest largest rng (xs.map fun x => a * x + b)
  have hsame : acc'.moments = ⟨acc.count, a * acc.mean + b, a ^ 2 * acc.m2⟩ :=
    (hmoments.affine a b).unique hmoments' hne'
  have hcount : acc'.count = acc.count := congrArg Welford.Moments.count hsame
  have hm2 : acc'.m2 = a ^ 2 * acc.m2 := congrArg Welford.Moments.m2 hsame
  have hstored : acc.samples ≠ [] := by
    have hlength := List.length_pos_iff.mpr hne
    rw [← List.length_pos_iff, hsampled.length_samples]
    omega
  have hstored' : acc'.samples ≠ [] := by
    rw [hsamples]
    simpa using hstored
  have hquantile : ∀ q, quantile acc'.sorted q = a * quantile acc.sorted q + b := fun q => by
    rw [sorted_map hlt hsamples, quantile_affine (LatencyAccumulator.sorted_ne_nil hstored)]
  refine ⟨s, s', hs, hs', ?_, ⟨?_, ?_, ?_, ?_, ?_, ?_, ?_, ?_⟩, fun hmany => ?_⟩
  · rw [hshows'.sampleCount_eq, hshows.sampleCount_eq, hcount]
  · rw [hshows'.meanNs_eq, hshows.meanNs_eq]
    exact congrArg Welford.Moments.mean hsame
  · rw [hshows'.minNs_eq, hshows.minNs_eq, hmin]
  · rw [hshows'.maxNs_eq, hshows.maxNs_eq, hmax]
  · rw [hshows'.p10Ns_eq hstored', hshows.p10Ns_eq hstored, hquantile]
  · rw [hshows'.p50Ns_eq hstored', hshows.p50Ns_eq hstored, hquantile]
  · rw [hshows'.p95Ns_eq hstored', hshows.p95Ns_eq hstored, hquantile]
  · rw [hshows'.p99Ns_eq hstored', hshows.p99Ns_eq hstored, hquantile]
  · rw [hshows'.p999Ns_eq hstored', hshows.p999Ns_eq hstored, hquantile]
  · have hmanyCount : 1 < acc.count := hsampled.count_eq ▸ hmany
    refine ⟨acc.m2 / ((acc.count - 1 : ℕ) : ℚ), ?_, ?_⟩
    · rw [hshows.stddevNs_eq, if_pos hmanyCount]
    · rw [hshows'.stddevNs_eq, hcount, if_pos hmanyCount, hm2, mul_div_assoc]

/-- Three readings in another unit, with an offset, of which one is kept. -/
theorem snapshot_affine_three :
    ∃ s s', (LatencyAccumulator.after coin 0 100 0 [(1 : ℚ), 2, 3]).snapshot 0 100 Rat.sqrt Nat.floor
        = some s ∧
      (LatencyAccumulator.after coin 0 100 0 ([(1 : ℚ), 2, 3].map fun x => 10 * x + 5)).snapshot 0 100
        Rat.sqrt Nat.floor = some s' ∧
      s'.sampleCount = s.sampleCount ∧ ReadsAs (fun x => 10 * x + 5) s s' ∧
      (1 < [(1 : ℚ), 2, 3].length →
        ∃ variance, s.stddevNs = Rat.sqrt variance ∧ s'.stddevNs = Rat.sqrt (10 ^ 2 * variance)) :=
  snapshot_affine coin 0 Rat.sqrt (by decide) (by decide) (by norm_num)
    (show ∀ x ∈ [(1 : ℚ), 2, 3], 0 < x ∧ x < 100 by norm_num) (by norm_num)

end MatchingEngine
