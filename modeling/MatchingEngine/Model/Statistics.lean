import Mathlib.Data.Nat.Cast.Defs

/-!
# Statistics

The accumulator of `statistics.hpp`. Numbers are of an arbitrary type with the operations the source
uses, and so is the state of the random engine. A read outside a vector is `none`.
-/

namespace MatchingEngine

/-- `latency_stats_t`. -/
structure LatencyStats (ρ : Type) where
  meanNs : ρ
  stddevNs : ρ
  minNs : ρ
  maxNs : ρ
  p10Ns : ρ
  p50Ns : ρ
  p95Ns : ρ
  p99Ns : ρ
  p999Ns : ρ
  sampleCount : Nat

/-- The statistics as the source initializes them. -/
def LatencyStats.initial {ρ : Type} [NatCast ρ] : LatencyStats ρ where
  meanNs := (0 : Nat)
  stddevNs := (0 : Nat)
  minNs := (0 : Nat)
  maxNs := (0 : Nat)
  p10Ns := (0 : Nat)
  p50Ns := (0 : Nat)
  p95Ns := (0 : Nat)
  p99Ns := (0 : Nat)
  p999Ns := (0 : Nat)
  sampleCount := 0

namespace Statistics

variable {ρ : Type} [LT ρ] [DecidableLT ρ]

/-- `std::clamp`. -/
def clamp (v lo hi : ρ) : ρ :=
  if v < lo then lo else if hi < v then hi else v

variable [Add ρ] [Sub ρ] [Mul ρ] [NatCast ρ]

/-- `linear_quantile`; `floor` is `std::floor` with the cast to `std::size_t`. -/
def linearQuantile (floor : ρ → Nat) (sorted : List ρ) (q : ρ) : Option ρ :=
  if sorted.isEmpty then
    some (0 : Nat)
  else
    let q := clamp q ((0 : Nat) : ρ) ((1 : Nat) : ρ)
    if sorted.length = 1 then
      sorted.head?
    else do
      let pos := ((sorted.length - 1 : Nat) : ρ) * q
      let lo := floor pos
      let hi := min (lo + 1) (sorted.length - 1)
      let frac := pos - (lo : ρ)
      let below ← sorted[lo]?
      let above ← sorted[hi]?
      return below + frac * (above - below)

end Statistics

/-- The cap `max_samples_v` and the distribution of the reservoir: `draw n` is over `0, …, n`, one less
than what the source draws over `1, …, n + 1`. -/
structure Reservoir (σ : Type) where
  maxSamples : Nat
  draw : (n : Nat) → σ → Fin (n + 1) × σ

/-- `latency_accumulator_t`. -/
structure LatencyAccumulator (ρ σ : Type) where
  count : Nat := 0
  mean : ρ
  m2 : ρ
  min : ρ
  max : ρ
  samples : List ρ := []
  rng : σ

namespace LatencyAccumulator

variable {ρ σ : Type}

/-- The accumulator before the first sample; `lowest` and `largest` are the ends of the range of
`double`. -/
def create [NatCast ρ] (lowest largest : ρ) (rng : σ) : LatencyAccumulator ρ σ where
  mean := (0 : Nat)
  m2 := (0 : Nat)
  min := largest
  max := lowest
  rng := rng

variable [Add ρ] [Sub ρ] [Mul ρ] [Div ρ] [NatCast ρ] [LT ρ] [DecidableLT ρ]

def add (reservoir : Reservoir σ) (acc : LatencyAccumulator ρ σ) (valueNs : ρ) :
    LatencyAccumulator ρ σ :=
  let count := acc.count + 1
  let delta := valueNs - acc.mean
  let mean := acc.mean + delta / (count : ρ)
  let delta2 := valueNs - mean
  let m2 := acc.m2 + delta * delta2
  let min := if valueNs < acc.min then valueNs else acc.min
  let max := if acc.max < valueNs then valueNs else acc.max
  if acc.samples.length < reservoir.maxSamples then
    { acc with count, mean, m2, min, max, samples := acc.samples ++ [valueNs] }
  else
    let (i, rng) := reservoir.draw acc.count acc.rng
    let j := i.val + 1
    let samples := if j ≤ reservoir.maxSamples then acc.samples.set (j - 1) valueNs else acc.samples
    { acc with count, mean, m2, min, max, samples, rng }

variable [DecidableEq ρ] [OfScientific ρ]

def snapshot (lowest largest : ρ) (sqrt : ρ → ρ) (floor : ρ → Nat) (acc : LatencyAccumulator ρ σ) :
    Option (LatencyStats ρ) :=
  let s := { LatencyStats.initial with sampleCount := acc.count }
  if acc.count = 0 then
    some s
  else
    let s := { s with
      meanNs := acc.mean
      stddevNs := if 1 < acc.count then sqrt (acc.m2 / ((acc.count - 1 : Nat) : ρ)) else (0 : Nat)
      minNs := if acc.min = largest then (0 : Nat) else acc.min
      maxNs := if acc.max = lowest then (0 : Nat) else acc.max }
    if acc.samples.isEmpty then
      some s
    else do
      let sorted := acc.samples.mergeSort fun a b => !decide (b < a)
      let p10Ns ← Statistics.linearQuantile floor sorted 0.10
      let p50Ns ← Statistics.linearQuantile floor sorted 0.50
      let p95Ns ← Statistics.linearQuantile floor sorted 0.95
      let p99Ns ← Statistics.linearQuantile floor sorted 0.99
      let p999Ns ← Statistics.linearQuantile floor sorted 0.999
      return { s with p10Ns, p50Ns, p95Ns, p99Ns, p999Ns }

end LatencyAccumulator

end MatchingEngine
