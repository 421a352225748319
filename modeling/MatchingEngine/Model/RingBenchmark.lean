import MatchingEngine.Model.Benchmark
import MatchingEngine.Model.RingPipeline

/-!
# The benchmark over its rings

An iteration of `benchmark.hpp` with the two `spsc_queue_t` that its agents run over. As in `RingPipeline`
a call of `try_push` or `try_pop` takes the steps that it takes in `SpscQueue`; everything else is as it is
in `Benchmark`.
-/

namespace MatchingEngine

structure BenchmarkRings where
  order : Capacity
  stats : Capacity

/-- A ring of so many slots has room for one event less. -/
def BenchmarkRings.queues (rings : BenchmarkRings) : BenchmarkCapacities :=
  ⟨rings.order.value - 1, rings.stats.value - 1⟩

/-- `stats_event_t{}`, which the slots of the stats queue hold at first. -/
def blankStats (ρ : Type) [NatCast ρ] : StatsEvent ρ := .ping ((0 : ℕ) : ρ)

structure RingIteration (ρ σ : Type) where
  producer : ProducerLoop
  matcher : TimedMatcher ρ := .testing
  stats : StatsLoop := .testing
  book : Clob
  tradeCounter : UInt64 := 0
  timed : Nat := 0
  latency : LatencyAccumulator ρ σ
  orderRing : SpscQueue InputEvent := .initial blankInput
  statsRing : SpscQueue (StatsEvent ρ)
  stop : Bool := false

namespace RingIteration

variable {ρ σ : Type}

def producerStep (rings : BenchmarkRings) (s : RingIteration ρ σ) : RingIteration ρ σ :=
  match s.producer with
  | .pushing loop events =>
    match loop.ringStep s.stop rings.order s.orderRing with
    | (some loop, orderRing) => { s with producer := .pushing loop events, orderRing }
    | (none, orderRing) => { s with producer := Iteration.behindPush events, orderRing }
  | .testing events => { s with producer := if s.stop then .done else Iteration.nextPush events }
  | .done => s

/-- Behind the book the matcher pushes what the timer has read, if timings are collected. -/
def behindBook (collectLatency : Bool) (elapsedNs : ℕ → ρ) (s : RingIteration ρ σ) : RingIteration ρ σ :=
  if collectLatency then
    { s with matcher := .pushing (.test (.ping (elapsedNs s.timed))) false, timed := s.timed + 1 }
  else { s with matcher := .testing }

/-- `matcher_handler_t` on an event that has been popped. -/
def handle (collectLatency : Bool) (elapsedNs : ℕ → ρ) (s : RingIteration ρ σ) :
    InputEvent → RingIteration ρ σ × List InputEvent
  | .shutdown => ({ s with matcher := .pushing (.test .shutdown) true }, [])
  | event =>
    match s.book.onInput .int64 event with
    | .ok (book, emitted) =>
      (behindBook collectLatency elapsedNs
        { s with book, tradeCounter := countTrades s.tradeCounter emitted }, [event])
    | .error fault => ({ s with matcher := .faulted fault }, [event])

def matcherStep (rings : BenchmarkRings) (collectLatency : Bool) (elapsedNs : ℕ → ρ)
    (s : RingIteration ρ σ) : RingIteration ρ σ × List InputEvent :=
  match s.matcher with
  | .testing => ({ s with matcher := if s.stop then .done else .popping }, [])
  | .popping =>
    match s.orderRing.popStep rings.order with
    | (orderRing, [.popped event]) => handle collectLatency elapsedNs { s with orderRing } event
    | (orderRing, [.popFailed]) => ({ s with matcher := .testing, orderRing }, [])
    | (orderRing, _) => ({ s with orderRing }, [])
  | .pushing loop exits =>
    match loop.ringStep s.stop rings.stats s.statsRing with
    | (some loop, statsRing) => ({ s with matcher := .pushing loop exits, statsRing }, [])
    | (none, statsRing) => ({ s with matcher := if exits then .done else .testing, statsRing }, [])
  | .done => (s, [])
  | .faulted _ => (s, [])

/-- The agent has returned from its loop. -/
def returned (s : RingIteration ρ σ) : BenchmarkMover → Bool
  | .producer =>
    match s.producer with
    | .done => true
    | _ => false
  | .matcher =>
    match s.matcher with
    | .done => true
    | _ => false
  | .stats =>
    match s.stats with
    | .stopped | .finished => true
    | _ => false
  | .requestStop => true

variable [NatCast ρ]

/-- An iteration in front of its first step. -/
def start (events : List InputEvent) (book : Clob) (latency : LatencyAccumulator ρ σ) :
    RingIteration ρ σ where
  producer := Iteration.nextPush events
  book := book
  latency := latency
  statsRing := .initial (blankStats ρ)

variable [Add ρ] [Sub ρ] [Mul ρ] [Div ρ] [LT ρ] [DecidableLT ρ]

def statsStep (rings : BenchmarkRings) (reservoir : Reservoir σ) (s : RingIteration ρ σ) :
    RingIteration ρ σ :=
  match s.stats with
  | .testing => { s with stats := if s.stop then .stopped else .popping }
  | .popping =>
    match s.statsRing.popStep rings.stats with
    | (statsRing, [.popped .shutdown]) => { s with stats := .finished, statsRing }
    | (statsRing, [.popped (.ping latencyNs)]) =>
      { s with stats := .testing, latency := s.latency.add reservoir latencyNs, statsRing }
    | (statsRing, [.popFailed]) => { s with stats := .testing, statsRing }
    | (statsRing, _) => { s with statsRing }
  | .stopped => s
  | .finished => s

/-- One step, and the event that the book is called with in it. -/
def step (rings : BenchmarkRings) (config : BenchmarkConfig) (reservoir : Reservoir σ)
    (elapsedNs : ℕ → ρ) (s : RingIteration ρ σ) : BenchmarkMover → RingIteration ρ σ × List InputEvent
  | .producer => (s.producerStep rings, [])
  | .matcher => s.matcherStep rings config.collectLatency elapsedNs
  | .stats => (s.statsStep rings reservoir, [])
  | .requestStop => ({ s with stop := true }, [])

end RingIteration

/-- `runIteration`, over rings. -/
def runRingIteration {δ τ : Type} [Add δ] [Sub δ] [Mul δ] [Div δ] [NatCast δ] [LT δ] [DecidableLT δ]
    (rings : BenchmarkRings) (config : BenchmarkConfig) (reservoir : Reservoir τ)
    (events : List InputEvent) (latency : LatencyAccumulator δ τ) (elapsedNs : ℕ → δ)
    (schedule : List (AgentSystem.Mover BenchmarkMover)) :
    Except Fault (AgentSystem (RingIteration δ τ) BenchmarkMover × List InputEvent) := do
  let warmupEvents := config.warmupEvents.toNat
  let (book, _) ← warmUp warmupEvents events {} 0
  return Interleaving.run
    (AgentSystem.step Iteration.agents RingIteration.returned
      (RingIteration.step rings config reservoir elapsedNs))
    (.initial Iteration.agents (.start (events.drop warmupEvents) book latency)) schedule

end MatchingEngine
