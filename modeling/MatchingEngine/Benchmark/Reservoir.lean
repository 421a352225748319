import MatchingEngine.Lib.ReservoirSampling
import MatchingEngine.Model.Statistics
import Mathlib.Probability.Distributions.Uniform

/-!
# The reservoir of the accumulator

The samples an accumulator stores are the observations at the positions that reservoir sampling holds
for the draws of its engine: `Sampled` says so of an accumulator and the observations it has seen, and
`add` keeps it. No write is then outside the samples, and the law of the positions is the law of the
samples.
-/

namespace MatchingEngine

open MeasureTheory ProbabilityTheory ReservoirSampling

variable {ρ σ : Type}

namespace Reservoir

variable (reservoir : Reservoir σ) (rng : σ)

/-- The state of the engine after `j` draws. -/
def rngAfter : Nat → σ
  | 0 => rng
  | j + 1 => (reservoir.draw (reservoir.maxSamples + j) (rngAfter j)).2

/-- The draw for the observation that `maxSamples + j` others precede. -/
def drawAt (j : Nat) : Fin (reservoir.maxSamples + j + 1) :=
  (reservoir.draw (reservoir.maxSamples + j) (reservoir.rngAfter rng j)).1

/-- The positions in the input of the samples stored after `n` observations. -/
def retained (n : Nat) : List Nat :=
  positions reservoir.maxSamples (reservoir.drawAt rng) n

end Reservoir

variable {reservoir : Reservoir σ} {rng : σ} {acc : LatencyAccumulator ρ σ} {xs : List ρ}

/-- `acc` has seen the observations `xs`, from the engine state `rng`. -/
structure Sampled (reservoir : Reservoir σ) (rng : σ) (acc : LatencyAccumulator ρ σ)
    (xs : List ρ) : Prop where
  count_eq : acc.count = xs.length
  samples_eq : acc.samples.map some = (reservoir.retained rng xs.length).map (xs[·]?)
  rng_eq : acc.rng = reservoir.rngAfter rng (xs.length - reservoir.maxSamples)

namespace Sampled

theorem create [NatCast ρ] (reservoir : Reservoir σ) (lowest largest : ρ) (rng : σ) :
    Sampled reservoir rng (LatencyAccumulator.create lowest largest rng) [] where
  count_eq := by rfl
  samples_eq := by rfl
  rng_eq := by rw [List.length_nil, Nat.zero_sub]; rfl

theorem length_samples (h : Sampled reservoir rng acc xs) :
    acc.samples.length = min xs.length reservoir.maxSamples := by
  have hlength := congrArg List.length h.samples_eq
  rwa [List.length_map, List.length_map, Reservoir.retained, length_positions] at hlength

/-- The positions held are of the observations before the newest one. -/
theorem retained_concat (reservoir : Reservoir σ) (rng : σ) (xs : List ρ) (valueNs : ρ) :
    (reservoir.retained rng xs.length).map ((xs ++ [valueNs])[·]?)
      = (reservoir.retained rng xs.length).map (xs[·]?) :=
  List.map_congr_left fun _ hp => List.getElem?_append_left (lt_of_mem_positions hp)

theorem lt_of_mem_retained {n p : Nat} (hp : p ∈ reservoir.retained rng n) : p < n :=
  lt_of_mem_positions hp

theorem mem_of_mem_samples (h : Sampled reservoir rng acc xs) {x : ρ} (hx : x ∈ acc.samples) :
    x ∈ xs := by
  have hsome : some x ∈ acc.samples.map some := List.mem_map_of_mem hx
  rw [h.samples_eq] at hsome
  obtain ⟨p, -, hget⟩ := List.mem_map.mp hsome
  exact List.mem_of_getElem? hget

/-- Among distinct observations, the stored ones are those at the positions held. -/
theorem mem_samples_iff (h : Sampled reservoir rng acc xs) (hdistinct : xs.Nodup) {p : Nat}
    (hp : p < xs.length) : xs[p] ∈ acc.samples ↔ p ∈ reservoir.retained rng xs.length := by
  have hmem : xs[p] ∈ acc.samples ↔ some xs[p] ∈ (reservoir.retained rng xs.length).map (xs[·]?) := by
    rw [← h.samples_eq, List.mem_map_of_injective (Option.some_injective ρ)]
  rw [hmem, List.mem_map]
  constructor
  · intro hheld
    obtain ⟨p', hp', hget⟩ := hheld
    rw [← List.getElem?_eq_getElem hp] at hget
    rwa [← (List.getElem?_inj (lt_of_mem_retained hp') hdistinct).mp hget]
  · intro hheld
    exact ⟨p, hheld, List.getElem?_eq_getElem hp⟩

end Sampled

variable [Add ρ] [Sub ρ] [Mul ρ] [Div ρ] [NatCast ρ] [LT ρ] [DecidableLT ρ]

namespace LatencyAccumulator

theorem count_add (acc : LatencyAccumulator ρ σ) (valueNs : ρ) :
    (acc.add reservoir valueNs).count = acc.count + 1 := by
  rw [LatencyAccumulator.add]
  split <;> rfl

theorem count_foldl_add (acc : LatencyAccumulator ρ σ) (xs : List ρ) :
    (xs.foldl (LatencyAccumulator.add reservoir) acc).count = acc.count + xs.length := by
  induction xs generalizing acc with
  | nil => rfl
  | cons valueNs xs ih =>
    rw [List.foldl_cons, ih, count_add, List.length_cons]
    omega

/-- The accumulator that has seen `xs`. -/
def after (reservoir : Reservoir σ) (lowest largest : ρ) (rng : σ) (xs : List ρ) :
    LatencyAccumulator ρ σ :=
  xs.foldl (LatencyAccumulator.add reservoir) (LatencyAccumulator.create lowest largest rng)

theorem after_concat (reservoir : Reservoir σ) (lowest largest : ρ) (rng : σ) (xs : List ρ) (x : ρ) :
    after reservoir lowest largest rng (xs ++ [x])
      = (after reservoir lowest largest rng xs).add reservoir x := by
  rw [after, List.foldl_append, List.foldl_cons, List.foldl_nil, after]

theorem add_push (valueNs : ρ) (h : acc.samples.length < reservoir.maxSamples) :
    (acc.add reservoir valueNs).samples = acc.samples ++ [valueNs] ∧
      (acc.add reservoir valueNs).rng = acc.rng := by
  simp [LatencyAccumulator.add, h]

/-- A full reservoir replaces the slot of the draw, where there is one. -/
theorem add_replace (valueNs : ρ) (h : acc.samples.length = reservoir.maxSamples) :
    (acc.add reservoir valueNs).samples
        = acc.samples.set (reservoir.draw acc.count acc.rng).1 valueNs ∧
      (acc.add reservoir valueNs).rng = (reservoir.draw acc.count acc.rng).2 := by
  have hfull : ¬ acc.samples.length < reservoir.maxSamples := by omega
  rw [LatencyAccumulator.add, if_neg hfull]
  refine ⟨?_, by rfl⟩
  change (if (reservoir.draw acc.count acc.rng).1.val + 1 ≤ reservoir.maxSamples then
    acc.samples.set (reservoir.draw acc.count acc.rng).1 valueNs else acc.samples) = _
  split
  case isTrue => rfl
  case isFalse hslot => rw [List.set_eq_of_length_le (by omega)]

end LatencyAccumulator

namespace Sampled

theorem add (h : Sampled reservoir rng acc xs) (valueNs : ρ) :
    Sampled reservoir rng (acc.add reservoir valueNs) (xs ++ [valueNs]) := by
  have hlength := h.length_samples
  have hcount : (acc.add reservoir valueNs).count = (xs ++ [valueNs]).length := by
    rw [LatencyAccumulator.count_add, h.count_eq, List.length_append, List.length_singleton]
  rcases Nat.lt_or_ge xs.length reservoir.maxSamples with hlt | hge
  · obtain ⟨hsamples, hrng⟩ := LatencyAccumulator.add_push valueNs
      (show acc.samples.length < reservoir.maxSamples by omega)
    refine ⟨hcount, ?_, ?_⟩
    · have hretained : reservoir.retained rng (xs ++ [valueNs]).length
          = reservoir.retained rng xs.length ++ [xs.length] := by
        rw [List.length_append, List.length_singleton, Reservoir.retained, positions, if_pos hlt]
        rfl
      rw [hsamples, hretained, List.map_append, List.map_append, retained_concat, h.samples_eq,
        List.map_singleton, List.map_singleton, List.getElem?_concat_length]
    · rw [hrng, h.rng_eq, List.length_append, List.length_singleton]
      congr 1
      omega
  · -- The engine draws for the `j`-th time.
    obtain ⟨j, hj⟩ := Nat.exists_eq_add_of_le hge
    obtain ⟨hsamples, hrng⟩ := LatencyAccumulator.add_replace valueNs
      (show acc.samples.length = reservoir.maxSamples by omega)
    have hdraws : xs.length - reservoir.maxSamples = j := by omega
    rw [h.count_eq, h.rng_eq, hdraws, hj] at hsamples hrng
    have hnext : (xs ++ [valueNs]).length = reservoir.maxSamples + (j + 1) := by
      rw [List.length_append, List.length_singleton]
      omega
    refine ⟨hcount, ?_, ?_⟩
    · have hretained : reservoir.retained rng (xs ++ [valueNs]).length
          = (reservoir.retained rng xs.length).set (reservoir.drawAt rng j) xs.length := by
        rw [hnext, hj]
        exact positions_replace j
      rw [hsamples, hretained, List.map_set, List.map_set, retained_concat, h.samples_eq,
        List.getElem?_concat_length]
      rfl
    · rw [hrng, hnext, Nat.add_sub_cancel_left]
      rfl

theorem foldl_add (h : Sampled reservoir rng acc xs) (ys : List ρ) :
    Sampled reservoir rng (ys.foldl (LatencyAccumulator.add reservoir) acc) (xs ++ ys) := by
  induction ys generalizing acc xs with
  | nil => rwa [List.foldl_nil, List.append_nil]
  | cons valueNs ys ih =>
    have hstep := ih (h.add valueNs)
    rwa [List.append_assoc, List.singleton_append] at hstep

theorem run (reservoir : Reservoir σ) (lowest largest : ρ) (rng : σ) (xs : List ρ) :
    Sampled reservoir rng (LatencyAccumulator.after reservoir lowest largest rng xs) xs :=
  (create reservoir lowest largest rng).foldl_add xs

end Sampled

/-- Whatever the draws, the samples stored are observations at distinct positions of the input, and
the slot a draw names exists. Where the draws are fair, every position is stored with one
probability. -/
theorem reservoir_unbiased (reservoir : Reservoir σ) (lowest largest : ρ) :
    (∀ rng (xs : List ρ),
      let acc := LatencyAccumulator.after reservoir lowest largest rng xs
      let held := reservoir.retained rng xs.length
      let j := (reservoir.draw acc.count acc.rng).1.val + 1
      acc.samples.map some = held.map (xs[·]?) ∧
        held.Nodup ∧ (∀ p ∈ held, p < xs.length) ∧
        acc.samples.length = min xs.length reservoir.maxSamples ∧
        (¬ acc.samples.length < reservoir.maxSamples →
          j = (reservoir.drawAt rng (xs.length - reservoir.maxSamples)).val + 1 ∧
            (j ≤ reservoir.maxSamples → j - 1 < acc.samples.length))) ∧
    ∀ {Ω : Type} [MeasurableSpace Ω] (μ : Measure Ω) (rng : Ω → σ) (n : Nat),
      reservoir.maxSamples ≤ n →
      FairDraws μ (n - reservoir.maxSamples) (fun j ω => reservoir.drawAt (rng ω) j) →
      (∀ p < n, μ.real {ω | p ∈ reservoir.retained (rng ω) n} = (reservoir.maxSamples : ℝ) / n) ∧
      ∀ xs : List ρ, xs.length = n → xs.Nodup → ∀ x ∈ xs,
        μ.real {ω | x ∈ (LatencyAccumulator.after reservoir lowest largest (rng ω) xs).samples}
          = (reservoir.maxSamples : ℝ) / n := by
  constructor
  · intro rng xs acc held j
    have hsampled : Sampled reservoir rng acc xs := Sampled.run reservoir lowest largest rng xs
    have hlength := hsampled.length_samples
    refine ⟨hsampled.samples_eq, nodup_positions _, fun p hp => lt_of_mem_positions hp, hlength, ?_⟩
    intro hfull
    have hcount := hsampled.count_eq
    have hseen : acc.count = reservoir.maxSamples + (xs.length - reservoir.maxSamples) := by omega
    have hrng : acc.rng = reservoir.rngAfter rng (xs.length - reservoir.maxSamples) :=
      hsampled.rng_eq
    refine ⟨?_, fun hslot => by omega⟩
    change (reservoir.draw acc.count acc.rng).1.val + 1 = _
    rw [hseen, hrng, Reservoir.drawAt]
  · intro Ω _ μ rng n hn hfair
    have hlaw : ∀ p < n,
        μ.real {ω | p ∈ reservoir.retained (rng ω) n} = (reservoir.maxSamples : ℝ) / n := by
      intro p hp
      have hseen : reservoir.maxSamples + (n - reservoir.maxSamples) = n := by omega
      have hmem := hfair.real_mem_positions le_rfl (p := p) (by omega)
      rwa [hseen] at hmem
    refine ⟨hlaw, ?_⟩
    intro xs hlength hdistinct x hx
    obtain ⟨p, hp, rfl⟩ := List.mem_iff_getElem.mp hx
    rw [← hlaw p (hlength ▸ hp)]
    congr 1
    ext ω
    have hiff := (Sampled.run reservoir lowest largest (rng ω) xs).mem_samples_iff hdistinct hp
    rwa [hlength] at hiff

/-- A reservoir of one slot with an engine whose state is its only draw. -/
def coin : Reservoir (Fin 2) where
  maxSamples := 1
  draw n side := (⟨if n = 0 then 0 else side.val, by split <;> omega⟩, side)

theorem real_uniform_two (side : Fin 2) :
    (PMF.uniformOfFintype (Fin 2)).toMeasure.real {side} = 1 / ((2 : ℕ) : ℝ) := by
  rw [measureReal_def, PMF.toMeasure_apply_singleton _ _ (MeasurableSet.singleton side)]
  simp

theorem fairDraws_coin :
    FairDraws (PMF.uniformOfFintype (Fin 2)).toMeasure 1 (fun j ω => coin.drawAt ω j) where
  measurable _ _ := measurable_of_finite _
  indep := iIndepFun.of_subsingleton
  uniform j hj i := by
    obtain rfl : j = 0 := by omega
    exact real_uniform_two i

theorem reservoir_unbiased_coin :
    (PMF.uniformOfFintype (Fin 2)).toMeasure.real {ω | 0 ∈ coin.retained ω 2} = 1 / 2 := by
  have hlaw := ((reservoir_unbiased coin (0 : Nat) 100).2 _ id 2 (by decide) fairDraws_coin).1
  have hfirst := hlaw 0 (by decide)
  simpa [coin] using hfirst

end MatchingEngine
