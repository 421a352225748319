import MatchingEngine.Model.AgentSystem
import MatchingEngine.Model.OrderGenerator
import MatchingEngine.Model.Statistics
import MatchingEngine.Model.StreamPipeline

/-!
# The benchmark

`benchmark.hpp`: the producer, the matcher and the stats agent of an iteration, and the loop of
`run_preset` around it, which starts and joins them. As in the stream pipeline a test of the flag and an
attempt on a queue are steps of their own. The clock is not modelled: what the timer reads at each event
is given, and the times that the results show are left out.
-/

namespace MatchingEngine

/-- `benchmark_config_t`, without the pinning of the threads. -/
structure BenchmarkConfig where
  warmupEvents : UInt64 := 10000
  iterations : UInt64 := 5
  collectLatency : Bool := true

/-- The bounds of the two queues. -/
structure BenchmarkCapacities where
  order : Nat
  stats : Nat

/-- The counter of `counting_emitter_t` behind these events. -/
def countTrades : UInt64 → List OutputEvent → UInt64
  | tradeCount, [] => tradeCount
  | tradeCount, .trade _ :: events => countTrades (tradeCount + 1) events
  | tradeCount, _ :: events => countTrades tradeCount events

/-- It counts the trades. -/
theorem countTrades_eq (tradeCount : UInt64) (events : List OutputEvent) :
    countTrades tradeCount events = tradeCount + UInt64.ofNat (trades events).length := by
  induction events generalizing tradeCount with
  | nil => exact (UInt64.add_zero tradeCount).symm
  | cons event events ih =>
    cases event with
    | trade event =>
      have hlength : (trades (.trade event :: events)).length = 1 + (trades events).length :=
        Nat.add_comm _ 1
      rw [countTrades, ih, hlength, UInt64.ofNat_add, UInt64.add_assoc]
      rfl
    | _ => exact ih tradeCount

/-- `stats_event_t`. -/
inductive StatsEvent (ρ : Type) where
  | ping (latencyNs : ρ)
  | shutdown
  deriving DecidableEq

/-- Where `producer_loop_t::run` stands, and the events it has not begun to push; with none to go back
to it pushes the final shutdown. Behind the push of an event it tests the flag. -/
inductive ProducerLoop where
  | pushing (loop : PushLoop InputEvent) (events : Option (List InputEvent))
  | testing (events : List InputEvent)
  | done

/-- Where the matcher's `event_loop_t::run` stands. -/
inductive TimedMatcher (ρ : Type) where
  | testing
  | popping
  | pushing (loop : PushLoop (StatsEvent ρ)) (exits : Bool)
  | done
  | faulted (fault : Fault)

/-- Where the `event_loop_t::run` of the stats agent stands. -/
inductive StatsLoop where
  | testing
  | popping
  | stopped
  | finished

/-- What the agents of an iteration share, behind its warm-up. `timed` counts the timings taken. -/
structure Iteration (ρ σ : Type) where
  producer : ProducerLoop
  matcher : TimedMatcher ρ := .testing
  stats : StatsLoop := .testing
  book : Clob
  tradeCounter : UInt64 := 0
  timed : Nat := 0
  latency : LatencyAccumulator ρ σ
  orderQueue : List InputEvent := []
  statsQueue : List (StatsEvent ρ) := []
  stop : Bool := false

/-- Who moves; `requestStop` sets the flag. -/
inductive BenchmarkMover where
  | producer
  | matcher
  | stats
  | requestStop
  deriving DecidableEq

namespace Iteration

variable {ρ σ : Type}

/-- The next push of the producer: an event, or the shutdown behind the last one. -/
def nextPush : List InputEvent → ProducerLoop
  | event :: events => .pushing (.test event) (some events)
  | [] => .pushing (.test .shutdown) none

def behindPush : Option (List InputEvent) → ProducerLoop
  | some events => .testing events
  | none => .done

def producerStep (capacities : BenchmarkCapacities) (s : Iteration ρ σ) : Iteration ρ σ :=
  match s.producer with
  | .pushing loop events =>
    match loop.step s.stop capacities.order s.orderQueue with
    | (some loop, orderQueue) => { s with producer := .pushing loop events, orderQueue }
    | (none, orderQueue) => { s with producer := behindPush events, orderQueue }
  | .testing events => { s with producer := if s.stop then .done else nextPush events }
  | .done => s

/-- Behind the book the matcher pushes what the timer has read, if timings are collected. -/
def behindBook (collectLatency : Bool) (elapsedNs : ℕ → ρ) (s : Iteration ρ σ) : Iteration ρ σ :=
  if collectLatency then
    { s with matcher := .pushing (.test (.ping (elapsedNs s.timed))) false, timed := s.timed + 1 }
  else { s with matcher := .testing }

/-- `matcher_handler_t` on an event that has been popped, and the event if the book is called with
it. -/
def handle (collectLatency : Bool) (elapsedNs : ℕ → ρ) (s : Iteration ρ σ) :
    InputEvent → Iteration ρ σ × List InputEvent
  | .shutdown => ({ s with matcher := .pushing (.test .shutdown) true }, [])
  | event =>
    match s.book.onInput .int64 event with
    | .ok (book, emitted) =>
      (behindBook collectLatency elapsedNs
        { s with book, tradeCounter := countTrades s.tradeCounter emitted }, [event])
    | .error fault => ({ s with matcher := .faulted fault }, [event])

def matcherStep (capacities : BenchmarkCapacities) (collectLatency : Bool) (elapsedNs : ℕ → ρ)
    (s : Iteration ρ σ) : Iteration ρ σ × List InputEvent :=
  match s.matcher with
  | .testing => ({ s with matcher := if s.stop then .done else .popping }, [])
  | .popping =>
    match s.orderQueue with
    | [] => ({ s with matcher := .testing }, [])
    | event :: orderQueue => handle collectLatency elapsedNs { s with orderQueue } event
  | .pushing loop exits =>
    match loop.step s.stop capacities.stats s.statsQueue with
    | (some loop, statsQueue) => ({ s with matcher := .pushing loop exits, statsQueue }, [])
    | (none, statsQueue) => ({ s with matcher := if exits then .done else .testing, statsQueue }, [])
  | .done => (s, [])
  | .faulted _ => (s, [])

variable [Add ρ] [Sub ρ] [Mul ρ] [Div ρ] [NatCast ρ] [LT ρ] [DecidableLT ρ]

/-- The stats agent pops an event and handles it with `stats_handler_t`. -/
def statsStep (reservoir : Reservoir σ) (s : Iteration ρ σ) : Iteration ρ σ :=
  match s.stats with
  | .testing => { s with stats := if s.stop then .stopped else .popping }
  | .popping =>
    match s.statsQueue with
    | [] => { s with stats := .testing }
    | .shutdown :: statsQueue => { s with stats := .finished, statsQueue }
    | .ping latencyNs :: statsQueue =>
      { s with stats := .testing, latency := s.latency.add reservoir latencyNs, statsQueue }
  | .stopped => s
  | .finished => s

/-- One step, and the event that the book is called with in it. The `n`-th timing reads
`elapsedNs n`. -/
def step (capacities : BenchmarkCapacities) (config : BenchmarkConfig) (reservoir : Reservoir σ)
    (elapsedNs : ℕ → ρ) (s : Iteration ρ σ) : BenchmarkMover → Iteration ρ σ × List InputEvent
  | .producer => (s.producerStep capacities, [])
  | .matcher => s.matcherStep capacities config.collectLatency elapsedNs
  | .stats => (s.statsStep reservoir, [])
  | .requestStop => ({ s with stop := true }, [])

omit [Add ρ] [Sub ρ] [Mul ρ] [Div ρ] [NatCast ρ] [LT ρ] [DecidableLT ρ]

/-- The agents, in the order in which they are declared. -/
def agents : List BenchmarkMover := [.producer, .matcher, .stats]

/-- The agent has returned from its loop. -/
def returned (s : Iteration ρ σ) : BenchmarkMover → Bool
  | .producer =>
    match s.producer with
    | .done => true
    | _ => false
  | .matcher =>
    match s.matcher with
    | .done => true
    | _ => false
  | .stats =>
    match s.stats with
    | .stopped | .finished => true
    | _ => false
  | .requestStop => true

end Iteration

/-- The warm-up loop with so many events to go, which it reads from the front of `events`: the book
without queue or agents, and its counter. -/
def warmUp : Nat → List InputEvent → Clob → UInt64 → Except Fault (Clob × UInt64)
  | 0, _, book, tradeCounter => return (book, tradeCounter)
  | _ + 1, [], _, _ => throw .badPointer
  | n + 1, event :: events, book, tradeCounter => do
    let (book, emitted) ← book.onInput .int64 event
    warmUp n events book (countTrades tradeCounter emitted)

/-- `max_size` of a vector of `input_event_t`, of 48 bytes each. -/
def maxEvents : Nat := (2 ^ 63 - 1) / 48

/-- `reserve` throws a `length_error` on more. -/
def reserve (n : UInt64) : Option Unit :=
  if n.toNat ≤ maxEvents then some () else none

section RunPreset

variable {ρ σ δ τ : Type} [Doubles ρ] [Distributions ρ σ]
  [Add δ] [Sub δ] [Mul δ] [Div δ] [NatCast δ] [LT δ] [DecidableLT δ]

/-- `pre_generate`. -/
def preGenerate (profile : MarketProfile ρ) (warmupEvents : UInt64) : Sampling σ (List InputEvent) := do
  let totalEvents := warmupEvents + profile.numOrders
  StateT.lift (reserve totalEvents)
  let (events, _) ← OrderGenerator.generate profile totalEvents.toNat (OrderGenerator.create profile) []
  return events

variable (capacities : BenchmarkCapacities) (config : BenchmarkConfig) (reservoir : Reservoir τ)

/-- An iteration of `run_preset` up to a point in the run of its threads, and the events that the book
has been called with behind the warm-up. The counter starts again from zero behind the warm-up. -/
def runIteration (events : List InputEvent) (latency : LatencyAccumulator δ τ) (elapsedNs : ℕ → δ)
    (schedule : List (AgentSystem.Mover BenchmarkMover)) :
    Except Fault (AgentSystem (Iteration δ τ) BenchmarkMover × List InputEvent) := do
  let warmupEvents := config.warmupEvents.toNat
  let (book, _) ← warmUp warmupEvents events {} 0
  let producer := Iteration.nextPush (events.drop warmupEvents)
  return Interleaving.run
    (AgentSystem.step Iteration.agents Iteration.returned
      (Iteration.step capacities config reservoir elapsedNs))
    (.initial Iteration.agents { producer, book, latency }) schedule

/-- `preset_result_t`, without the profile, the times and what is computed from them. -/
structure PresetResult (δ τ : Type) where
  totalOrders : UInt64 := 0
  totalTrades : UInt64 := 0
  latency : LatencyAccumulator δ τ

/-- The loop of `run_preset`, with the readings of the timer and a schedule for each iteration. There is
no result where `join` has not returned. -/
def runIterations (numOrders : UInt64) (events : List InputEvent) (elapsedNs : Nat → ℕ → δ)
    (schedules : Nat → List (AgentSystem.Mover BenchmarkMover)) :
    Nat → PresetResult δ τ → Option (PresetResult δ τ)
  | 0, agg => some agg
  | remaining + 1, agg =>
    match runIteration capacities config reservoir events agg.latency (elapsedNs remaining)
        (schedules remaining) with
    | .error _ => none
    | .ok (s, _) =>
      if s.main = .returned then
        runIterations numOrders events elapsedNs schedules remaining
          { totalOrders := agg.totalOrders + numOrders
            totalTrades := agg.totalTrades + s.loops.tradeCounter
            latency := s.loops.latency }
      else none

def runPreset (profile : MarketProfile ρ) (latency : LatencyAccumulator δ τ) (elapsedNs : Nat → ℕ → δ)
    (schedules : Nat → List (AgentSystem.Mover BenchmarkMover)) : Sampling σ (PresetResult δ τ) := do
  let events ← preGenerate profile config.warmupEvents
  StateT.lift (runIterations capacities config reservoir profile.numOrders events elapsedNs schedules
    config.iterations.toNat { latency })

end RunPreset

end MatchingEngine
