import MatchingEngine.Model.RingBenchmark

/-!
# The benchmark program

`benchmark.cpp`, with the presets of `market_profile.hpp` and its command line, `benchmark_config.hpp`.
What `cxxopts` makes of the arguments is given: how often a flag stands there and what its value converts
to, or the text of the exception. Threads are not pinned, and of what is printed only the diagnostic and
the choice of results are modelled.
-/

namespace MatchingEngine

/-- `market_profile_t` with its name and seed. -/
structure NamedProfile (ρ : Type) extends MarketProfile ρ where
  name : String
  seed : UInt64

section Presets

variable {ρ : Type} [Doubles ρ]

/-- Deep passive liquidity. -/
def profileQuietBuild : NamedProfile ρ where
  name := "quiet"
  seed := 42
  numOrders := 1000000
  cancelRatio := 0.84
  aggressiveRatio := 0.014
  aggressionSpreadK := 0.045
  buyBias := 0.50
  mu := 0.0
  sigma := 0.00004
  initialMid := 10000
  tickSize := 1
  placeDecay := 0.60
  qtyLogMean := 2.0
  qtyLogStddev := 0.6
  qtyMin := 1
  qtyMax := 1000
  sideAutocorr := 0.60
  cancelDepthLambda := 1.8
  heatMean := 0.18
  heatKappa := 0.038
  heatSigma := 0.025
  hotCancelMul := 1.12
  hotAggressiveMul := 1.45
  hotSigmaMul := 2.8
  hotHalfSpreadExtraTicks := 1
  baseHalfSpreadTicks := 1
  spreadAsymTicks := 0

/-- Tight liquid tape. -/
def profileActiveMatch : NamedProfile ρ where
  name := "active"
  seed := 42
  numOrders := 1000000
  cancelRatio := 0.80
  aggressiveRatio := 0.18
  aggressionSpreadK := 0.076
  buyBias := 0.50
  mu := 0.0
  sigma := 0.00018
  initialMid := 10000
  tickSize := 1
  placeDecay := 0.55
  qtyLogMean := 2.5
  qtyLogStddev := 0.8
  qtyMin := 1
  qtyMax := 1000
  sideAutocorr := 0.64
  cancelDepthLambda := 2.0
  heatMean := 0.34
  heatKappa := 0.060
  heatSigma := 0.058
  hotCancelMul := 1.08
  hotAggressiveMul := 1.38
  hotSigmaMul := 2.2
  hotHalfSpreadExtraTicks := 1
  baseHalfSpreadTicks := 1
  spreadAsymTicks := 0

/-- Cancel-dominated stream. -/
def profileCancelHeavy : NamedProfile ρ where
  name := "cancel"
  seed := 42
  numOrders := 1000000
  cancelRatio := 0.95
  aggressiveRatio := 0.012
  aggressionSpreadK := 0.060
  buyBias := 0.50
  mu := 0.0
  sigma := 0.00009
  initialMid := 10000
  tickSize := 1
  placeDecay := 0.55
  qtyLogMean := 2.0
  qtyLogStddev := 0.5
  qtyMin := 1
  qtyMax := 500
  sideAutocorr := 0.52
  cancelDepthLambda := 2.4
  heatMean := 0.12
  heatKappa := 0.032
  heatSigma := 0.042
  hotCancelMul := 1.05
  hotAggressiveMul := 1.25
  hotSigmaMul := 1.9
  hotHalfSpreadExtraTicks := 1
  baseHalfSpreadTicks := 1
  spreadAsymTicks := 0

/-- Stress from asymmetric liquidity and spread widening. -/
def profileVolatile : NamedProfile ρ where
  name := "volatile"
  seed := 42
  numOrders := 1000000
  cancelRatio := 0.82
  aggressiveRatio := 0.24
  aggressionSpreadK := 0.055
  buyBias := 0.50
  mu := 0.0
  sigma := 0.0020
  initialMid := 10000
  tickSize := 1
  placeDecay := 0.25
  qtyLogMean := 2.5
  qtyLogStddev := 0.8
  qtyMin := 1
  qtyMax := 1000
  sideAutocorr := 0.74
  cancelDepthLambda := 1.85
  heatMean := 0.55
  heatKappa := 0.026
  heatSigma := 0.18
  hotCancelMul := 1.22
  hotAggressiveMul := 1.55
  hotSigmaMul := 2.0
  hotHalfSpreadExtraTicks := 3
  baseHalfSpreadTicks := 1
  spreadAsymTicks := 2

/-- Directional execution stress. -/
def profileSweep : NamedProfile ρ where
  name := "sweep"
  seed := 42
  numOrders := 1000000
  cancelRatio := 0.62
  aggressiveRatio := 0.72
  aggressionSpreadK := 0.0
  buyBias := 0.50
  mu := 0.0
  sigma := 0.0012
  initialMid := 10000
  tickSize := 1
  placeDecay := 0.20
  qtyLogMean := 5.0
  qtyLogStddev := 1.0
  qtyMin := 1
  qtyMax := 10000
  sideAutocorr := 0.85
  cancelDepthLambda := 0.9
  heatMean := 0.60
  heatKappa := 0.038
  heatSigma := 0.068
  hotCancelMul := 1.18
  hotAggressiveMul := 1.28
  hotSigmaMul := 2.0
  hotHalfSpreadExtraTicks := 3
  baseHalfSpreadTicks := 1
  spreadAsymTicks := 2

end Presets

/-- `cxxopts::ParseResult`: `count`, and `as` at the types the flags have, with the text of what it
throws. -/
structure Cxxopts.ParseResult (ρ : Type) where
  count : String → Nat
  asString : String → Except String String
  asUInt64 : String → Except String UInt64
  asInt32 : String → Except String Int32
  asDouble : String → Except String ρ

/-- What `parse_config` throws; a `parse_error` comes with the diagnostic printed before it. -/
inductive ConfigError where
  | helpRequested
  | parseError (diagnostic : String)
  deriving DecidableEq, Repr

namespace BenchmarkConfig

/-- `market_profile_overrides_t`. -/
structure MarketProfileOverrides (ρ : Type) where
  orders : Option UInt64 := none
  seed : Option UInt64 := none
  cancelRatio : Option ρ := none
  aggressiveRatio : Option ρ := none
  buyBias : Option ρ := none
  mu : Option ρ := none
  sigma : Option ρ := none
  initialMid : Option Int32 := none
  tickSize : Option Int32 := none
  placeDecay : Option ρ := none
  qtyLogMean : Option ρ := none
  qtyLogStddev : Option ρ := none
  qtyMin : Option Int32 := none
  qtyMax : Option Int32 := none

/-- `staging_t`; the members of its `benchmark_config_t` that pin threads stand beside the others. -/
structure Staging (ρ : Type) where
  profileSelection : String := "all"
  benchmark : BenchmarkConfig := {}
  producerCpu : Option Int32 := none
  matcherCpu : Option Int32 := none
  statsCpu : Option Int32 := none
  profileOverrides : MarketProfileOverrides ρ := {}

/-- `config_t`. -/
structure Config (ρ : Type) where
  benchmark : BenchmarkConfig
  producerCpu : Option Int32
  matcherCpu : Option Int32
  statsCpu : Option Int32
  profiles : List (NamedProfile ρ)

section Parsing

variable {ρ α : Type}

/-- An exception of `cxxopts` that reaches the handler behind a `try` block. -/
def caught : Except String α → Except ConfigError α
  | .ok a => return a
  | .error what => throw (.parseError ("benchmark: " ++ what))

variable (result : Cxxopts.ParseResult ρ)

def assignIfPresent (as : String → Except String α) (flag : String) (slot : α) :
    Except ConfigError α :=
  if result.count flag = 0 then return slot else caught (as flag)

def assignOptionalField (as : String → Except String α) (flag : String) (slot : Option α) :
    Except ConfigError (Option α) :=
  if result.count flag = 0 then return slot else some <$> caught (as flag)

def assignCpu (flag : String) (slot : Option Int32) : Except ConfigError (Option Int32) :=
  if result.count flag = 0 then return slot
  else
    match result.asInt32 flag with
    | .ok v =>
      if v < 0 then
        throw (.parseError ("benchmark: invalid value for --" ++ flag ++ ": '" ++ toString v
          ++ "' (expected non-negative integer)"))
      else return some v
    | .error what => throw (.parseError ("benchmark: invalid value for --" ++ flag ++ ": " ++ what))

/-- The part of `fill_staging_from_parse` about `--latency-stats`. -/
def latencyStats (slot : Bool) : Except ConfigError Bool := do
  if result.count "latency-stats" = 0 then return slot
  let v ← caught (result.asString "latency-stats")
  if v = "on" ∨ v = "true" ∨ v = "1" then return true
  if v = "off" ∨ v = "false" ∨ v = "0" then return false
  throw (.parseError ("benchmark: --latency-stats must be on|off, got '" ++ v ++ "'"))

def fillOverrides (o : MarketProfileOverrides ρ) :
    Except ConfigError (MarketProfileOverrides ρ) := do
  let orders ← assignOptionalField result result.asUInt64 "orders" o.orders
  let seed ← assignOptionalField result result.asUInt64 "seed" o.seed
  let cancelRatio ← assignOptionalField result result.asDouble "cancel-ratio" o.cancelRatio
  let aggressiveRatio ← assignOptionalField result result.asDouble "aggressive-ratio" o.aggressiveRatio
  let buyBias ← assignOptionalField result result.asDouble "buy-bias" o.buyBias
  let mu ← assignOptionalField result result.asDouble "mu" o.mu
  let sigma ← assignOptionalField result result.asDouble "sigma" o.sigma
  let initialMid ← assignOptionalField result result.asInt32 "initial-mid" o.initialMid
  let tickSize ← assignOptionalField result result.asInt32 "tick-size" o.tickSize
  let placeDecay ← assignOptionalField result result.asDouble "place-decay" o.placeDecay
  let qtyLogMean ← assignOptionalField result result.asDouble "qty-log-mean" o.qtyLogMean
  let qtyLogStddev ← assignOptionalField result result.asDouble "qty-log-stddev" o.qtyLogStddev
  let qtyMin ← assignOptionalField result result.asInt32 "qty-min" o.qtyMin
  let qtyMax ← assignOptionalField result result.asInt32 "qty-max" o.qtyMax
  return { orders, seed, cancelRatio, aggressiveRatio, buyBias, mu, sigma, initialMid, tickSize,
           placeDecay, qtyLogMean, qtyLogStddev, qtyMin, qtyMax }

def fillStagingFromParse (out : Staging ρ) : Except ConfigError (Staging ρ) := do
  let profileSelection ← assignIfPresent result result.asString "profile" out.profileSelection
  let warmupEvents ← assignIfPresent result result.asUInt64 "warmup" out.benchmark.warmupEvents
  let iterations ← assignIfPresent result result.asUInt64 "iterations" out.benchmark.iterations
  let producerCpu ← assignCpu result "producer-cpu" out.producerCpu
  let matcherCpu ← assignCpu result "matcher-cpu" out.matcherCpu
  let statsCpu ← assignCpu result "stats-cpu" out.statsCpu
  let collectLatency ← latencyStats result out.benchmark.collectLatency
  let profileOverrides ← fillOverrides result out.profileOverrides
  return { profileSelection, benchmark := { warmupEvents, iterations, collectLatency }
           producerCpu, matcherCpu, statsCpu, profileOverrides }

def mergeStagedOverrides (base : NamedProfile ρ) (o : MarketProfileOverrides ρ) : NamedProfile ρ :=
  { base with
    numOrders := o.orders.getD base.numOrders
    seed := o.seed.getD base.seed
    cancelRatio := o.cancelRatio.getD base.cancelRatio
    aggressiveRatio := o.aggressiveRatio.getD base.aggressiveRatio
    buyBias := o.buyBias.getD base.buyBias
    mu := o.mu.getD base.mu
    sigma := o.sigma.getD base.sigma
    initialMid := (o.initialMid.map Int32.toInt).getD base.initialMid
    tickSize := (o.tickSize.map Int32.toInt).getD base.tickSize
    placeDecay := o.placeDecay.getD base.placeDecay
    qtyLogMean := o.qtyLogMean.getD base.qtyLogMean
    qtyLogStddev := o.qtyLogStddev.getD base.qtyLogStddev
    qtyMin := (o.qtyMin.map Int32.toInt).getD base.qtyMin
    qtyMax := (o.qtyMax.map Int32.toInt).getD base.qtyMax }

variable [Doubles ρ]

/-- `all` in `resolve_presets`. -/
def presets : List (NamedProfile ρ) :=
  [profileQuietBuild, profileActiveMatch, profileCancelHeavy, profileVolatile, profileSweep]

def resolvePresets (pick : String) : Except ConfigError (List (NamedProfile ρ)) :=
  if pick = "all" then return presets
  else
    match presets.find? fun p => p.name = pick with
    | some p => return [p]
    | none => throw (.parseError ("benchmark: unknown --profile '" ++ pick
        ++ "'. Valid: quiet | active | cancel | volatile | sweep | all"))

/-- `parse_config`, behind `options.parse`. -/
def parseConfig (parsed : Except String (Cxxopts.ParseResult ρ)) : Except ConfigError (Config ρ) := do
  let parsed ← caught parsed
  if parsed.count "help" ≠ 0 then throw .helpRequested
  let staging ← fillStagingFromParse parsed {}
  let bases ← resolvePresets staging.profileSelection
  return { staging with
    profiles := bases.map fun base => mergeStagedOverrides base staging.profileOverrides }

end Parsing

end BenchmarkConfig

namespace BenchmarkProgram

/-- The exit status of the program, the diagnostic on `std::cerr` and the results it has printed. -/
structure Exit (ρ δ τ : Type) where
  status : Nat
  diagnostic : Option String
  results : List (NamedProfile ρ × PresetResult δ τ)

variable {ρ σ δ τ : Type} [Doubles ρ] [Distributions ρ σ]
  [Add δ] [Sub δ] [Mul δ] [Div δ] [NatCast δ] [LT δ] [DecidableLT δ]

/-- `queue_capacity_v`, of both rings. -/
def queueCapacity : Capacity where
  value := 1 <<< 16
  two_le := by decide
  power_of_two := by decide

/-- The rings of an iteration, which is run on the queues that they implement. -/
def rings : BenchmarkRings := ⟨queueCapacity, queueCapacity⟩

/-- What the program is built with: the reservoir, the ends of the range of `double`, and the random
engines with a seed. -/
structure Environment (σ δ τ : Type) where
  reservoir : Reservoir τ
  lowest : δ
  largest : δ
  seedGenerator : UInt64 → σ
  seedReservoir : UInt64 → τ

/-- The loop of `main`, with what the timer reads and the schedules of a preset found at the number of
presets behind it. -/
def runPresets (env : Environment σ δ τ) (config : BenchmarkConfig) (elapsedNs : Nat → Nat → ℕ → δ)
    (schedules : Nat → Nat → List (AgentSystem.Mover BenchmarkMover)) :
    List (NamedProfile ρ) → Option (List (NamedProfile ρ × PresetResult δ τ))
  | [] => some []
  | profile :: profiles => do
    let latency := .create env.lowest env.largest (env.seedReservoir profile.seed)
    let (result, _) ← runPreset rings.queues config env.reservoir profile.toMarketProfile latency
      (elapsedNs profiles.length) (schedules profiles.length) (env.seedGenerator profile.seed)
    let results ← runPresets env config elapsedNs schedules profiles
    return (profile, result) :: results

def main (env : Environment σ δ τ) (elapsedNs : Nat → Nat → ℕ → δ)
    (schedules : Nat → Nat → List (AgentSystem.Mover BenchmarkMover))
    (parsed : Except String (Cxxopts.ParseResult ρ)) : Option (Exit ρ δ τ) :=
  match BenchmarkConfig.parseConfig parsed with
  | .error .helpRequested => some ⟨0, none, []⟩
  | .error (.parseError diagnostic) => some ⟨1, some diagnostic, []⟩
  | .ok config => do
    let results ← runPresets env config.benchmark elapsedNs schedules config.profiles
    return ⟨0, none, results⟩

end BenchmarkProgram

end MatchingEngine
