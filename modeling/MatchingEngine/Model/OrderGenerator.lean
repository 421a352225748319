import MatchingEngine.Lib.Sampling
import MatchingEngine.Model.MessageTypes

/-!
# The order generator

`order_generator.hpp`. Floating-point numbers are of an arbitrary type with the operations the source
uses, and the distributions are arbitrary draws from a source of random values, so nothing is said of
either but what a statement assumes. Integers are computed as in the source. Where the source has no
defined behaviour, reading `live_` outside its bounds or clamping between bounds in the wrong order, the
computation has no result.
-/

namespace MatchingEngine

/-- What the source uses of `double`, its literals and the `<cmath>` functions included. -/
class Doubles (ρ : Type) extends OfScientific ρ, Add ρ, Sub ρ, Mul ρ, Div ρ, Neg ρ where
  ofInt : Int → ρ
  lt : ρ → ρ → Bool
  le : ρ → ρ → Bool
  exp : ρ → ρ
  log : ρ → ρ
  ceil : ρ → ρ
  lround : ρ → Int

/-- The distributions of the generator; `uniformInt n` is over `0, …, n`. -/
class Distributions (ρ σ : Type) where
  uniform : σ → ρ × σ
  normal : σ → ρ × σ
  uniformInt : Nat → σ → Nat × σ

/-- `market_profile_t`, without its name and seed. -/
structure MarketProfile (ρ : Type) where
  numOrders : UInt64
  cancelRatio : ρ
  aggressiveRatio : ρ
  aggressionSpreadK : ρ
  buyBias : ρ
  mu : ρ
  sigma : ρ
  initialMid : Int
  tickSize : Int
  placeDecay : ρ
  qtyLogMean : ρ
  qtyLogStddev : ρ
  qtyMin : Int
  qtyMax : Int
  sideAutocorr : ρ
  cancelDepthLambda : ρ
  heatMean : ρ
  heatKappa : ρ
  heatSigma : ρ
  hotCancelMul : ρ
  hotAggressiveMul : ρ
  hotSigmaMul : ρ
  hotHalfSpreadExtraTicks : Int
  baseHalfSpreadTicks : Int
  spreadAsymTicks : Int

/-- `live_resting_t`. -/
structure LiveResting where
  id : Int
  side : Side
  price : Int
  deriving DecidableEq, Repr

/-- The members of `order_generator_t` besides the profile and the random engine. -/
structure OrderGenerator (ρ : Type) where
  logMid : ρ
  heat : ρ
  lastOrderId : Int := 0
  live : List LiveResting := []
  hasLastAddSide : Bool := false
  lastAddSide : Side := .buy

namespace OrderGenerator

open Doubles

variable {ρ σ : Type} [Doubles ρ] [Distributions ρ σ]

def uniform : Sampling σ ρ := fun rng => some (Distributions.uniform rng)

def normal : Sampling σ ρ := fun rng => some (Distributions.normal rng)

def uniformInt (ρ : Type) [Distributions ρ σ] (n : Nat) : Sampling σ Nat :=
  fun rng => some (Distributions.uniformInt ρ n rng)

/-- `std::clamp` of doubles between two literals. -/
def clamp (x low high : ρ) : ρ := if lt x low then low else if lt high x then high else x

/-- `std::clamp` of integers. With `high < low` its behaviour is undefined, and there is no result. -/
def clampInt (x low high : Int) : Option Int :=
  if high < low then none else some (if x < low then low else if high < x then high else x)

/-- The profile's tick, or one. -/
def tick (profile : MarketProfile ρ) : Int := max profile.tickSize 1

def create (profile : MarketProfile ρ) : OrderGenerator ρ where
  logMid := log (ofInt profile.initialMid)
  heat := clamp profile.heatMean 0.0 1.0

variable (profile : MarketProfile ρ) (g : OrderGenerator ρ)

def stepHeat : Sampling σ (OrderGenerator ρ) := do
  let z : ρ ← normal
  let heat := g.heat + (profile.heatKappa * (profile.heatMean - g.heat) + profile.heatSigma * z)
  return { g with heat := clamp heat 0.0 1.0 }

def blendHotMul (hotMul : ρ) : ρ := 1.0 + g.heat * (hotMul - 1.0)

def bidAskHalfWidthPrice : Int × Int :=
  let base := max profile.baseHalfSpreadTicks 1 * tick profile
  let asym := profile.spreadAsymTicks * tick profile
  let bidHalf := max (base + asym) (tick profile)
  let askHalf := max (base - asym) (tick profile)
  let scaledExtra := g.heat * ofInt (max profile.hotHalfSpreadExtraTicks 0)
  let hotExtra := SignedInt.int64.wrap (lround scaledExtra * tick profile)
  (SignedInt.int64.add bidHalf hotExtra, SignedInt.int64.add askHalf hotExtra)

def aggressionSpreadScale : ρ :=
  if le profile.aggressionSpreadK 0.0 then 1.0
  else
    let (bw, aw) := bidAskHalfWidthPrice profile g
    let spreadTicks : ρ := ofInt (SignedInt.int64.add bw aw) / ofInt (tick profile)
    exp (-profile.aggressionSpreadK * spreadTicks)

def snapToTick (rawPrice : ρ) : Int :=
  let rounded := lround rawPrice
  let rounded := if rounded < tick profile then tick profile else rounded
  let snapped := rounded.tdiv (tick profile) * tick profile
  if snapped = 0 then tick profile else snapped

def currentBestBid : Int :=
  snapToTick profile (exp g.logMid - ofInt (bidAskHalfWidthPrice profile g).1)

def currentBestAsk : Int :=
  snapToTick profile (exp g.logMid + ofInt (bidAskHalfWidthPrice profile g).2)

def sampleSide : Sampling σ Side := do
  if lt profile.sideAutocorr 0.0 || !g.hasLastAddSide then
    let u : ρ ← uniform
    return if lt u profile.buyBias then .buy else .sell
  let u : ρ ← uniform
  if lt u profile.sideAutocorr then return g.lastAddSide
  let u : ρ ← uniform
  return if lt u profile.buyBias then .buy else .sell

/-- The weight of a live order: `depth_ticks` and `w` in the loop of `sample_cancel_index`. -/
def cancelWeight (bestBid bestAsk : Int) (o : LiveResting) : ρ :=
  let depthTicks :=
    match o.side with
    | .buy => max 0 ((bestBid - o.price).tdiv (tick profile))
    | .sell => max 0 ((o.price - bestAsk).tdiv (tick profile))
  exp (-profile.cancelDepthLambda * ofInt depthTicks)

/-- The last loop of `sample_cancel_index`, at index `i`. -/
def weightedIndex : ρ → Nat → List ρ → Nat
  | _, i, [] => i - 1
  | u, i, weight :: weights =>
    let u := u - weight
    if le u 0.0 then i else weightedIndex u (i + 1) weights

def sampleCancelIndex (bestBid bestAsk : Int) : Sampling σ Nat := do
  if g.live.length = 1 ∨ le profile.cancelDepthLambda 0.0 then
    uniformInt ρ (g.live.length - 1)
  else
    let cancelWeights := g.live.map (cancelWeight profile bestBid bestAsk)
    let sumW := cancelWeights.foldl (· + ·) 0.0
    if le sumW 0.0 then uniformInt ρ (g.live.length - 1)
    else
      let u ← uniform
      return weightedIndex (u * sumW) 0 cancelWeights

def geometricTailTicks : Sampling σ ρ := do
  let lambda := if lt profile.placeDecay 1e-3 then 1e-3 else profile.placeDecay
  let u : ρ ← uniform
  return -log (clamp u 1e-9 (1.0 - 1e-9)) / lambda

def samplePrice (side : Side) (aggressiveProb : ρ) : Sampling σ Int := do
  let mid := exp g.logMid
  let (bw, aw) := bidAskHalfWidthPrice profile g
  let bestBid := mid - ofInt bw
  let bestAsk := mid + ofInt aw
  let u ← uniform
  if lt u aggressiveProb then
    let depthTicks := ceil (← geometricTailTicks profile)
    match side with
    | .buy => return snapToTick profile (bestAsk + depthTicks * ofInt profile.tickSize)
    | .sell => return snapToTick profile (bestBid - depthTicks * ofInt profile.tickSize)
  else
    let depthTicks ← geometricTailTicks profile
    match side with
    | .buy => return snapToTick profile (bestBid - depthTicks * ofInt profile.tickSize)
    | .sell => return snapToTick profile (bestAsk + depthTicks * ofInt profile.tickSize)

def sampleQuantity : Sampling σ Int := do
  let z ← normal
  let q := exp (profile.qtyLogMean + profile.qtyLogStddev * z)
  let clamped ← StateT.lift (clampInt (lround q) profile.qtyMin profile.qtyMax)
  return max clamped 1

/-- The branch of `next` that cancels a live order, which the last one then replaces. -/
def nextCancel : Sampling σ (InputEvent × OrderGenerator ρ) := do
  let i ← sampleCancelIndex profile g (currentBestBid profile g) (currentBestAsk profile g)
  let order ← StateT.lift g.live[i]?
  let back ← StateT.lift g.live.getLast?
  return (.cancelOrder ⟨order.id⟩, { g with live := (g.live.set i back).dropLast })

/-- The branch of `next` that adds an order. -/
def nextAdd (aggressiveP : ρ) : Sampling σ (InputEvent × OrderGenerator ρ) := do
  let id := SignedInt.int64.add g.lastOrderId 1
  let side ← sampleSide profile g
  let quantity ← sampleQuantity profile
  let price ← samplePrice profile g side aggressiveP
  return (.addOrder ⟨id, side, quantity, price, .gtc⟩,
    { g with
      lastOrderId := id
      lastAddSide := side
      hasLastAddSide := true
      live := g.live ++ [⟨id, side, price⟩] })

def next : Sampling σ (InputEvent × OrderGenerator ρ) := do
  let g ← stepHeat profile g
  let sigmaEff := profile.sigma * blendHotMul g profile.hotSigmaMul
  let z ← normal
  let g := { g with logMid := g.logMid + (profile.mu + sigmaEff * z) }
  let cancelP := clamp (profile.cancelRatio * blendHotMul g profile.hotCancelMul) 0.0 0.999
  let aggressiveP := clamp (profile.aggressiveRatio * blendHotMul g profile.hotAggressiveMul) 0.0 1.0
  let aggressiveP := clamp (aggressiveP * aggressionSpreadScale profile g) 0.0 1.0
  if g.live.isEmpty then nextAdd profile g aggressiveP
  else
    let u ← uniform
    if lt u cancelP then nextCancel profile g else nextAdd profile g aggressiveP

/-- `n` calls of `next`, behind the events already collected: the loop of `pre_generate`. -/
def generate : Nat → OrderGenerator ρ → List InputEvent → Sampling σ (List InputEvent × OrderGenerator ρ)
  | 0, g, events => return (events, g)
  | n + 1, g, events => do
    let (event, g) ← next profile g
    generate n g (events ++ [event])

end OrderGenerator

end MatchingEngine
