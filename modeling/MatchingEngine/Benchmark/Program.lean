import MatchingEngine.Lib.Fallible
import MatchingEngine.Benchmark.Termination
import MatchingEngine.Model.BenchmarkProgram

/-!
# The benchmark program

The profiles that a command line gives have the bounds of their types, since the presets do and what
overrides them comes in those types. So each preset runs to its end if there is room for its events and the
bounds of the quantities are in order.
-/

namespace MatchingEngine

open Sampling
open Interleaving (Fair moves)

/-! ### The profiles of a command line -/

namespace BenchmarkConfig

variable {ρ : Type}

theorem fits_toInt (x : Int32) : (SignedInt.bits 32).Fits x.toInt :=
  OrderGenerator.fits_bits32_iff.mpr ⟨x.le_toInt, x.toInt_lt⟩

theorem fits_getD {x : Int} (hx : (SignedInt.bits 32).Fits x) (o : Option Int32) :
    (SignedInt.bits 32).Fits ((o.map Int32.toInt).getD x) := by
  cases o with
  | none => exact hx
  | some y => exact fits_toInt y

theorem fits_mergeStagedOverrides {base : NamedProfile ρ} (h : base.Fits)
    (o : MarketProfileOverrides ρ) : (mergeStagedOverrides base o).Fits where
  initialMid := fits_getD h.initialMid o.initialMid
  tickSize := fits_getD h.tickSize o.tickSize
  qtyMin := fits_getD h.qtyMin o.qtyMin
  qtyMax := fits_getD h.qtyMax o.qtyMax
  hotHalfSpreadExtraTicks := h.hotHalfSpreadExtraTicks
  baseHalfSpreadTicks := h.baseHalfSpreadTicks
  spreadAsymTicks := h.spreadAsymTicks

variable [Doubles ρ]

theorem fits_of_mem_presets {base : NamedProfile ρ} (h : base ∈ presets) : base.Fits := by
  simp only [presets, List.mem_cons, List.not_mem_nil, or_false] at h
  rcases h with rfl | rfl | rfl | rfl | rfl
  all_goals exact ⟨rfl, rfl, rfl, rfl, rfl, rfl, rfl⟩

theorem ensures_resolvePresets (pick : String) :
    Fallible.Ensures (resolvePresets pick : Except ConfigError (List (NamedProfile ρ)))
      fun bases => ∀ base ∈ bases, base ∈ presets := by
  rw [resolvePresets]
  split
  · exact Fallible.ensures_ok fun base hbase => hbase
  · split
    case h_1 p hp =>
      refine Fallible.ensures_ok fun base hbase => ?_
      rw [List.mem_singleton.mp hbase]
      exact List.mem_of_find?_eq_some hp
    case h_2 => exact Fallible.ensures_error

/-- Whatever the flags. -/
theorem ensures_parseConfig (parsed : Except String (Cxxopts.ParseResult ρ)) :
    Fallible.Ensures (parseConfig parsed) fun config => ∀ profile ∈ config.profiles, profile.Fits := by
  rw [parseConfig]
  refine (Fallible.ensures_true _).bind fun parsed _ => ?_
  split
  · exact Fallible.ensures_error
  · refine (Fallible.ensures_true _).bind fun staging _ => ?_
    refine (ensures_resolvePresets staging.profileSelection).bind fun bases hbases =>
      Fallible.ensures_ok fun profile hprofile => ?_
    obtain ⟨base, hbase, rfl⟩ := List.mem_map.mp hprofile
    exact fits_mergeStagedOverrides (fits_of_mem_presets (hbases base hbase)) staging.profileOverrides

end BenchmarkConfig

/-! ### One preset after another -/

namespace BenchmarkProgram

section Presets

variable {ρ σ δ τ : Type} [Doubles ρ] [Distributions ρ σ]
  [Add δ] [Sub δ] [Mul δ] [Div δ] [NatCast δ] [LT δ] [DecidableLT δ]
  {env : Environment σ δ τ} {config : BenchmarkConfig}

theorem queues_pos : 0 < rings.queues.order ∧ 0 < rings.queues.stats := by
  constructor <;> decide

/-- The totals of a preset are those of as many sequential runs of its events. -/
def Sequential (env : Environment σ δ τ) (config : BenchmarkConfig) (profile : NamedProfile ρ)
    (result : PresetResult δ τ) : Prop :=
  ∃ events rng', preGenerate profile.toMarketProfile config.warmupEvents (env.seedGenerator profile.seed)
      = some (events, rng') ∧
    ∃ warm warmEmitted book emitted,
      Clob.run .int64 {} (events.take config.warmupEvents.toNat) = .ok (warm, warmEmitted) ∧
      warm.run .int64 (events.drop config.warmupEvents.toNat) = .ok (book, emitted) ∧
      result.totalOrders = config.iterations * profile.numOrders ∧
      result.totalTrades = config.iterations * UInt64.ofNat (trades emitted).length ∧
      result.latency.count
        = config.iterations.toNat * (if config.collectLatency then profile.numOrders.toNat else 0)

/-- There is room for the events of the preset, and its quantities have bounds that are in order, unless it
has no events. -/
def Generable (config : BenchmarkConfig) (profile : NamedProfile ρ) : Prop :=
  config.warmupEvents.toNat + profile.numOrders.toNat ≤ maxEvents ∧
    (profile.qtyMin ≤ profile.qtyMax ∨ config.warmupEvents.toNat + profile.numOrders.toNat = 0)

omit [Doubles ρ] in
instance (config : BenchmarkConfig) (profile : NamedProfile ρ) : Decidable (Generable config profile) :=
  inferInstanceAs (Decidable (_ ∧ (_ ∨ _)))

theorem exists_preGenerate {profile : NamedProfile ρ} (hprofile : profile.Fits)
    (hround : ∀ x : ρ, SignedInt.int64.Fits (Doubles.lround x))
    (hindex : ∀ n (rng : σ), (Distributions.uniformInt ρ n rng).1 ≤ n)
    (h : Generable config profile) (rng : σ) :
    ∃ events rng', preGenerate profile.toMarketProfile config.warmupEvents rng = some (events, rng') := by
  obtain ⟨hroom, hqty | hzero⟩ := h
  · obtain ⟨events, rng', hevents, -⟩ := yields_preGenerate hprofile hqty hround hindex hroom rng
    exact ⟨events, rng', hevents⟩
  · have hnone : config.warmupEvents + profile.numOrders = 0 := by
      rw [← UInt64.toNat_inj, UInt64.toNat_add, hzero]
      rfl
    refine ⟨[], rng, ?_⟩
    rw [preGenerate, hnone]
    rfl

/-- Of the schedules only those of the presets that run matter. -/
theorem runPresets_congr {profiles : List (NamedProfile ρ)} {elapsedNs : Nat → Nat → ℕ → δ}
    {schedules schedules' : Nat → Nat → List (AgentSystem.Mover BenchmarkMover)}
    (h : ∀ i < profiles.length, schedules i = schedules' i) :
    runPresets env config elapsedNs schedules profiles
      = runPresets env config elapsedNs schedules' profiles := by
  induction profiles with
  | nil => rfl
  | cons profile profiles ih =>
    rw [List.length_cons] at h
    rw [runPresets, runPresets, h profiles.length (Nat.lt_succ_self _),
      ih fun i hi => h i (Nat.lt_succ_of_lt hi)]

/-- The first `lengths i j` moves of each iteration of each preset. -/
def schedulesOf (schedule : Nat → Nat → ℕ → AgentSystem.Mover BenchmarkMover) (lengths : Nat → Nat → ℕ)
    (i j : Nat) : List (AgentSystem.Mover BenchmarkMover) :=
  moves (schedule i j) (lengths i j)

section Fair

variable {schedule : Nat → Nat → ℕ → AgentSystem.Mover BenchmarkMover}
  (hfair : ∀ i j, Fair (AgentSystem.Mover.Among (· ≠ .requestStop)) (schedule i j))
  (hstop : ∀ i j n, (schedule i j n).Among (· ≠ .requestStop))
  (hround : ∀ x : ρ, SignedInt.int64.Fits (Doubles.lround x))
  (hindex : ∀ n (rng : σ), (Distributions.uniformInt ρ n rng).1 ≤ n)

include hfair hstop hround hindex

theorem runPresets_returns (env : Environment σ δ τ) (elapsedNs : Nat → Nat → ℕ → δ)
    {profiles : List (NamedProfile ρ)} (hfits : ∀ profile ∈ profiles, profile.Fits)
    (hgenerable : ∀ profile ∈ profiles, Generable config profile) :
    ∃ lengths results,
      runPresets env config elapsedNs (schedulesOf schedule lengths) profiles = some results ∧
      results.map Prod.fst = profiles ∧ ∀ r ∈ results, Sequential env config r.1 r.2 := by
  induction profiles with
  | nil => exact ⟨fun _ _ => 0, [], rfl, rfl, fun _ => nofun⟩
  | cons profile profiles ih =>
    obtain ⟨lengths, results, hresults, hfst, hsequential⟩ :=
      ih (fun p hp => hfits p (List.mem_cons_of_mem _ hp))
        fun p hp => hgenerable p (List.mem_cons_of_mem _ hp)
    have hprofile := hfits profile List.mem_cons_self
    have hroom := (hgenerable profile List.mem_cons_self).1
    obtain ⟨events, rng', hevents⟩ := exists_preGenerate hprofile hround hindex
      (hgenerable profile List.mem_cons_self) (env.seedGenerator profile.seed)
    obtain ⟨hcount, -, horders⟩ := ensures_preGenerate hprofile hround _ _ _ _ hevents
    obtain ⟨warm, warmEmitted, book, emitted, hwarm, hrun, length, result, hresult, htotals⟩ :=
      runPreset_of_preGenerate queues_pos.1 queues_pos.2 hevents hcount
        (warmup_le_of_room hcount hroom) horders env.reservoir
        (.create env.lowest env.largest (env.seedReservoir profile.seed)) (elapsedNs profiles.length)
        (hfair profiles.length) (hstop profiles.length)
    refine ⟨Function.update lengths profiles.length length, (profile, result) :: results, ?_, ?_, ?_⟩
    · have hrest : runPresets env config elapsedNs
          (schedulesOf schedule (Function.update lengths profiles.length length)) profiles
            = some results := by
        rw [← hresults]
        apply runPresets_congr
        intro i hi
        funext j
        rw [schedulesOf, schedulesOf, Function.update_of_ne hi.ne]
      have hfirst : schedulesOf schedule (Function.update lengths profiles.length length)
          profiles.length = fun j => moves (schedule profiles.length j) (length j) := by
        funext j
        rw [schedulesOf, Function.update_self]
      rw [runPresets, hrest, hfirst, hresult]
      rfl
    · rw [List.map_cons, hfst]
    · intro r hr
      rcases List.mem_cons.mp hr with rfl | hmem
      · refine ⟨events, rng', hevents, warm, warmEmitted, book, emitted, hwarm, hrun, htotals.1,
          htotals.2.1, ?_⟩
        rw [htotals.2.2]
        exact Nat.zero_add _
      · exact hsequential r hmem

end Fair

end Presets

/-- `--profile sweep --orders 2 --warmup 1 --iterations 2`. -/
def sweepOfTwo : Cxxopts.ParseResult ℚ where
  count flag := if flag ∈ ["profile", "orders", "warmup", "iterations"] then 1 else 0
  asString _ := .ok "sweep"
  asUInt64 flag := .ok (if flag = "warmup" then 1 else 2)
  asInt32 flag := .error ("Option '" ++ flag ++ "' not present")
  asDouble flag := .error ("Option '" ++ flag ++ "' not present")

def sweepOfTwoConfig : BenchmarkConfig.Config ℚ where
  benchmark := ⟨1, 2, true⟩
  producerCpu := none
  matcherCpu := none
  statsCpu := none
  profiles := [BenchmarkConfig.mergeStagedOverrides profileSweep { orders := some 2 }]

theorem parseConfig_sweepOfTwo : BenchmarkConfig.parseConfig (.ok sweepOfTwo) = .ok sweepOfTwoConfig := rfl

def firstEnvironment : Environment ℕ ℚ Unit where
  reservoir := firstReservoir
  lowest := 0
  largest := 100
  seedGenerator _ := 0
  seedReservoir _ := ()

end BenchmarkProgram

end MatchingEngine
