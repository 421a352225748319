import MatchingEngine.Benchmark.Harness
import MatchingEngine.Model.RingBenchmark
import MatchingEngine.Runtime.RingPipeline

/-!
# The benchmark's rings

An iteration over rings does what one over queues does that have room for one event less than the rings
have slots. A step within a call shows nowhere, and the step that a call returns with is the agent's step on
its queue. So an iteration over rings has done the measured work when its threads are joined, and its
results are those of the queues.
-/

namespace MatchingEngine

open SpscQueue (Holds)

namespace ProducerLoop

/-- The event of the producer's call of `try_push`. -/
def attempt? : ProducerLoop → Option InputEvent
  | .pushing loop _ => loop.attempt?
  | _ => none

@[simp] theorem attempt?_nextPush (events : List InputEvent) :
    (Iteration.nextPush events).attempt? = none := by
  cases events <;> rfl

@[simp] theorem attempt?_behindPush (events : Option (List InputEvent)) :
    (Iteration.behindPush events).attempt? = none := by
  cases events <;> rfl

end ProducerLoop

def TimedMatcher.attempt? {ρ : Type} : TimedMatcher ρ → Option (StatsEvent ρ)
  | .pushing loop _ => loop.attempt?
  | _ => none

namespace RingIteration

variable {ρ σ : Type} {rings : BenchmarkRings} {s : RingIteration ρ σ} {orderQueue : List InputEvent}
  {statsQueue : List (StatsEvent ρ)}

/-- The iteration with queues in place of its rings. -/
def onQueues (s : RingIteration ρ σ) (orderQueue : List InputEvent) (statsQueue : List (StatsEvent ρ)) :
    Iteration ρ σ where
  producer := s.producer
  matcher := s.matcher
  stats := s.stats
  book := s.book
  tradeCounter := s.tradeCounter
  timed := s.timed
  latency := s.latency
  orderQueue := orderQueue
  statsQueue := statsQueue
  stop := s.stop

/-- Who has returned does not hang on the queues. -/
theorem returned_onQueues (s : RingIteration ρ σ) (orderQueue : List InputEvent)
    (statsQueue : List (StatsEvent ρ)) : (s.onQueues orderQueue statsQueue).returned = s.returned := by
  funext agent
  cases agent <;> rfl

/-! ### What a step leaves alone -/

theorem producer_eq_done (h : s.returned .producer = true) : s.producer = .done :=
  Iteration.producer_eq_done (s := s.onQueues [] []) h

theorem matcher_eq_done (h : s.returned .matcher = true) : s.matcher = .done :=
  Iteration.matcher_eq_done (s := s.onQueues [] []) h

theorem stats_eq_of_returned (h : s.returned .stats = true) : s.stats = .stopped ∨ s.stats = .finished :=
  Iteration.stats_eq_of_returned (s := s.onQueues [] []) h

theorem producerStep_frame (rings : BenchmarkRings) (s : RingIteration ρ σ) :
    ∃ producer orderRing, s.producerStep rings = { s with producer, orderRing } := by
  rw [producerStep]
  split
  · split <;> exact ⟨_, _, rfl⟩
  · exact ⟨_, _, rfl⟩
  · exact ⟨_, _, rfl⟩

theorem handle_frame (collectLatency : Bool) (elapsedNs : ℕ → ρ) (s : RingIteration ρ σ)
    (event : InputEvent) :
    ∃ matcher book tradeCounter timed, (s.handle collectLatency elapsedNs event).1
      = { s with matcher, book, tradeCounter, timed } := by
  cases event with
  | shutdown => exact ⟨_, _, _, _, rfl⟩
  | addOrder _ | cancelOrder _ =>
    rw [handle]
    split
    · rw [behindBook]
      split <;> exact ⟨_, _, _, _, rfl⟩
    · exact ⟨_, _, _, _, rfl⟩
    · nofun

theorem matcherStep_frame (rings : BenchmarkRings) (collectLatency : Bool) (elapsedNs : ℕ → ρ)
    (s : RingIteration ρ σ) :
    ∃ matcher book tradeCounter timed orderRing statsRing,
      (s.matcherStep rings collectLatency elapsedNs).1
        = { s with matcher, book, tradeCounter, timed, orderRing, statsRing } := by
  rw [matcherStep]
  split
  · exact ⟨_, _, _, _, _, _, rfl⟩
  · split
    · next orderRing event _ =>
      obtain ⟨matcher, book, tradeCounter, timed, hhandle⟩ :=
        handle_frame collectLatency elapsedNs { s with orderRing } event
      exact ⟨matcher, book, tradeCounter, timed, orderRing, s.statsRing, hhandle⟩
    · exact ⟨_, _, _, _, _, _, rfl⟩
    · exact ⟨_, _, _, _, _, _, rfl⟩
  · split <;> exact ⟨_, _, _, _, _, _, rfl⟩
  · exact ⟨_, _, _, _, _, _, rfl⟩
  · exact ⟨_, _, _, _, _, _, rfl⟩

section Step

variable [Add ρ] [Sub ρ] [Mul ρ] [Div ρ] [NatCast ρ] [LT ρ] [DecidableLT ρ]

theorem statsStep_frame (rings : BenchmarkRings) (reservoir : Reservoir σ) (s : RingIteration ρ σ) :
    ∃ stats latency statsRing, s.statsStep rings reservoir = { s with stats, latency, statsRing } := by
  rw [statsStep]
  split
  · exact ⟨_, _, _, rfl⟩
  · split <;> exact ⟨_, _, _, rfl⟩
  · exact ⟨_, _, _, rfl⟩
  · exact ⟨_, _, _, rfl⟩

/-- An agent that has returned is not back in its loop after a step. -/
theorem returned_step (rings : BenchmarkRings) (config : BenchmarkConfig) (reservoir : Reservoir σ)
    (elapsedNs : ℕ → ρ) (s : RingIteration ρ σ) (agent mover : BenchmarkMover)
    (h : s.returned agent = true) :
    (s.step rings config reservoir elapsedNs mover).1.returned agent = true := by
  cases mover with
  | requestStop => cases agent <;> exact h
  | producer =>
    obtain ⟨producer, orderRing, hframe⟩ := s.producerStep_frame rings
    cases agent with
    | producer =>
      rw [step, producerStep, producer_eq_done h]
      exact h
    | _ =>
      rw [step, hframe]
      exact h
  | matcher =>
    obtain ⟨matcher, book, tradeCounter, timed, orderRing, statsRing, hframe⟩ :=
      s.matcherStep_frame rings config.collectLatency elapsedNs
    cases agent with
    | matcher =>
      rw [step, matcherStep, matcher_eq_done h]
      exact h
    | _ =>
      rw [step, hframe]
      exact h
  | stats =>
    obtain ⟨stats, latency, statsRing, hframe⟩ := s.statsStep_frame rings reservoir
    cases agent with
    | stats =>
      rcases stats_eq_of_returned h with hstats | hstats
      · rw [step, statsStep, hstats]
        exact h
      · rw [step, statsStep, hstats]
        exact h
    | _ =>
      rw [step, hframe]
      exact h

end Step

/-! ### Steps over rings -/

/-- The rings hold these queues, and the agents are in the calls that their states say. -/
structure Implements (rings : BenchmarkRings) (s : RingIteration ρ σ) (orderQueue : List InputEvent)
    (statsQueue : List (StatsEvent ρ)) : Prop where
  orders : s.orderRing.Holds rings.order orderQueue s.producer.attempt? (s.matcher = .popping)
  samples : s.statsRing.Holds rings.stats statsQueue s.matcher.attempt? (s.stats = .popping)

/-- A step within a call. -/
structure Stutters (rings : BenchmarkRings) (s : RingIteration ρ σ) (orderQueue : List InputEvent)
    (statsQueue : List (StatsEvent ρ)) (r : RingIteration ρ σ × List InputEvent) : Prop where
  same : r.1.onQueues orderQueue statsQueue = s.onQueues orderQueue statsQueue
  silent : r.2 = []
  implements : Implements rings r.1 orderQueue statsQueue

/-- A step that is one on the queues. -/
def Steps (rings : BenchmarkRings) (r : RingIteration ρ σ × List InputEvent)
    (p : Iteration ρ σ × List InputEvent) : Prop :=
  ∃ orderQueue statsQueue, p = (r.1.onQueues orderQueue statsQueue, r.2) ∧
    Implements rings r.1 orderQueue statsQueue

namespace Implements

theorem producerStep (h : Implements rings s orderQueue statsQueue) :
    Stutters rings s orderQueue statsQueue (s.producerStep rings, []) ∨
      Steps rings (s.producerStep rings, [])
        ((s.onQueues orderQueue statsQueue).producerStep rings.queues, []) := by
  have horders := h.orders
  cases hproducer : s.producer with
  | pushing loop events =>
    rw [hproducer] at horders
    simp only [RingIteration.producerStep, Iteration.producerStep, onQueues, hproducer]
    rcases loop.ringStep_spec horders s.stop with
      ⟨ring', hring, -, horders'⟩ | ⟨loop', ring', queue', hring, hqueue, horders'⟩
    · rw [hring]
      refine Or.inl ⟨?_, rfl, horders', h.samples⟩
      simp only [onQueues, hproducer]
    · rw [hring]
      refine Or.inr ⟨queue', statsQueue, ?_, ?_⟩
      · simp only [BenchmarkRings.queues, hqueue]
        cases loop' <;> rfl
      · cases loop' with
        | some loop' => exact ⟨horders', h.samples⟩
        | none => exact ⟨by simpa using horders', h.samples⟩
  | testing events =>
    rw [hproducer] at horders
    simp only [RingIteration.producerStep, Iteration.producerStep, onQueues, hproducer]
    refine Or.inr ⟨orderQueue, statsQueue, rfl, ?_, h.samples⟩
    cases s.stop with
    | false =>
      change s.orderRing.Holds rings.order orderQueue (Iteration.nextPush events).attempt? _
      rw [ProducerLoop.attempt?_nextPush]
      exact horders
    | true => exact horders
  | done =>
    simp only [RingIteration.producerStep, Iteration.producerStep, onQueues, hproducer]
    refine Or.inr ⟨orderQueue, statsQueue, ?_, h⟩
    simp only [onQueues, hproducer]

/-- Handling an event is the same over rings; it begins no call. -/
theorem handle (collectLatency : Bool) (elapsedNs : ℕ → ρ) (event : InputEvent)
    (horders : s.orderRing.Holds rings.order orderQueue s.producer.attempt? False)
    (hsamples : s.statsRing.Holds rings.stats statsQueue none (s.stats = .popping)) :
    Steps rings (s.handle collectLatency elapsedNs event)
      ((s.onQueues orderQueue statsQueue).handle collectLatency elapsedNs event) := by
  have hcalls : ∀ (matcher : TimedMatcher ρ) (book : Clob) (tradeCounter : UInt64) (timed : Nat),
      matcher.attempt? = none →
      Implements rings { s with matcher, book, tradeCounter, timed } orderQueue statsQueue := by
    intro matcher book tradeCounter timed hnone
    refine ⟨horders.mono (Or.inr rfl) False.elim, ?_⟩
    simpa only [hnone] using hsamples
  have hbehind : ∀ (book : Clob) (tradeCounter : UInt64) (processed : List InputEvent),
      Steps rings (RingIteration.behindBook collectLatency elapsedNs { s with book, tradeCounter }, processed)
        (Iteration.behindBook collectLatency elapsedNs
          { s.onQueues orderQueue statsQueue with book, tradeCounter }, processed) := by
    intro book tradeCounter processed
    refine ⟨orderQueue, statsQueue, ?_, ?_⟩
    · cases collectLatency <;> rfl
    · cases collectLatency with
      | false => exact hcalls _ _ _ _ rfl
      | true => exact hcalls _ _ _ _ rfl
  cases event with
  | shutdown => exact ⟨orderQueue, statsQueue, rfl, hcalls _ _ _ _ rfl⟩
  | addOrder add =>
    simp only [RingIteration.handle, Iteration.handle, show
      (s.onQueues orderQueue statsQueue).book = s.book from rfl]
    cases s.book.onInput .int64 (.addOrder add) with
    | ok r => exact hbehind r.1 _ _
    | error fault => exact ⟨orderQueue, statsQueue, rfl, hcalls _ _ _ _ rfl⟩
  | cancelOrder cancel =>
    simp only [RingIteration.handle, Iteration.handle, show
      (s.onQueues orderQueue statsQueue).book = s.book from rfl]
    cases s.book.onInput .int64 (.cancelOrder cancel) with
    | ok r => exact hbehind r.1 _ _
    | error fault => exact ⟨orderQueue, statsQueue, rfl, hcalls _ _ _ _ rfl⟩

theorem matcherStep (h : Implements rings s orderQueue statsQueue) (collectLatency : Bool)
    (elapsedNs : ℕ → ρ) :
    Stutters rings s orderQueue statsQueue (s.matcherStep rings collectLatency elapsedNs) ∨
      Steps rings (s.matcherStep rings collectLatency elapsedNs)
        ((s.onQueues orderQueue statsQueue).matcherStep rings.queues collectLatency elapsedNs) := by
  have horders := h.orders
  have hsamples := h.samples
  cases hmatcher : s.matcher with
  | testing =>
    simp only [RingIteration.matcherStep, Iteration.matcherStep, onQueues, hmatcher]
    rw [hmatcher] at horders hsamples
    refine Or.inr ⟨orderQueue, statsQueue, rfl, horders.mono (Or.inr rfl) ?_, ?_⟩
    · intro hpop
      cases hpop
    · cases s.stop <;> exact hsamples
  | popping =>
    simp only [RingIteration.matcherStep, Iteration.matcherStep, onQueues, hmatcher]
    rw [hmatcher] at horders hsamples
    rcases (horders.mono (Or.inr rfl) fun _ => trivial).popStep with
      ⟨ring', hring, -, horders'⟩ | ⟨ring', hring, rfl, horders'⟩ |
        ⟨ring', event, rest, hring, rfl, horders'⟩
    · rw [hring]
      refine Or.inl ⟨?_, rfl, horders'.mono (Or.inr rfl) fun _ => rfl, hsamples⟩
      simp only [onQueues, hmatcher]
    · rw [hring]
      exact Or.inr ⟨[], statsQueue, rfl, horders'.mono (Or.inr rfl) False.elim, hsamples⟩
    · rw [hring]
      exact Or.inr (handle (s := { s with matcher := .popping, orderRing := ring' }) collectLatency elapsedNs
        event horders' hsamples)
  | pushing loop exits =>
    simp only [RingIteration.matcherStep, Iteration.matcherStep, onQueues, hmatcher]
    rw [hmatcher] at horders hsamples
    rcases loop.ringStep_spec hsamples s.stop with
      ⟨ring', hring, -, hsamples'⟩ | ⟨loop', ring', queue', hring, hqueue, hsamples'⟩
    · rw [hring]
      refine Or.inl ⟨?_, rfl, horders, hsamples'⟩
      simp only [onQueues, hmatcher]
    · rw [hring]
      refine Or.inr ⟨orderQueue, queue', ?_, ?_⟩
      · simp only [BenchmarkRings.queues, hqueue]
        cases loop' <;> rfl
      · have hidle : ∀ {popping : Prop}, s.orderRing.Holds rings.order orderQueue s.producer.attempt? popping :=
          fun {_} => horders.mono (Or.inr rfl) fun hpop => by cases hpop
        cases loop' with
        | some loop' => exact ⟨hidle, hsamples'⟩
        | none => cases exits <;> exact ⟨hidle, hsamples'⟩
  | done =>
    simp only [RingIteration.matcherStep, Iteration.matcherStep, onQueues, hmatcher]
    refine Or.inr ⟨orderQueue, statsQueue, ?_, h⟩
    simp only [onQueues, hmatcher]
  | faulted fault =>
    simp only [RingIteration.matcherStep, Iteration.matcherStep, onQueues, hmatcher]
    refine Or.inr ⟨orderQueue, statsQueue, ?_, h⟩
    simp only [onQueues, hmatcher]

section Step

variable [Add ρ] [Sub ρ] [Mul ρ] [Div ρ] [NatCast ρ] [LT ρ] [DecidableLT ρ]

theorem statsStep (h : Implements rings s orderQueue statsQueue) (reservoir : Reservoir σ) :
    Stutters rings s orderQueue statsQueue (s.statsStep rings reservoir, []) ∨
      Steps rings (s.statsStep rings reservoir, [])
        ((s.onQueues orderQueue statsQueue).statsStep reservoir, []) := by
  have hsamples := h.samples
  cases hstats : s.stats with
  | testing =>
    simp only [RingIteration.statsStep, Iteration.statsStep, onQueues, hstats]
    rw [hstats] at hsamples
    exact Or.inr ⟨orderQueue, statsQueue, rfl, h.orders, hsamples.mono (Or.inr rfl) StatsLoop.noConfusion⟩
  | popping =>
    simp only [RingIteration.statsStep, Iteration.statsStep, onQueues, hstats]
    rw [hstats] at hsamples
    rcases (hsamples.mono (Or.inr rfl) fun _ => trivial).popStep with
      ⟨ring', hring, -, hsamples'⟩ | ⟨ring', hring, rfl, hsamples'⟩ |
        ⟨ring', event, rest, hring, rfl, hsamples'⟩
    · rw [hring]
      refine Or.inl ⟨?_, rfl, h.orders, hsamples'.mono (Or.inr rfl) fun _ => rfl⟩
      simp only [onQueues, hstats]
    · rw [hring]
      exact Or.inr ⟨orderQueue, [], rfl, h.orders, hsamples'.mono (Or.inr rfl) False.elim⟩
    · rw [hring]
      refine Or.inr ⟨orderQueue, rest, ?_, ?_⟩
      · cases event <;> rfl
      · cases event <;> exact ⟨h.orders, hsamples'.mono (Or.inr rfl) False.elim⟩
  | stopped =>
    simp only [RingIteration.statsStep, Iteration.statsStep, onQueues, hstats]
    refine Or.inr ⟨orderQueue, statsQueue, ?_, h⟩
    simp only [onQueues, hstats]
  | finished =>
    simp only [RingIteration.statsStep, Iteration.statsStep, onQueues, hstats]
    refine Or.inr ⟨orderQueue, statsQueue, ?_, h⟩
    simp only [onQueues, hstats]

/-- **One step over rings.** -/
theorem step (h : Implements rings s orderQueue statsQueue) (config : BenchmarkConfig)
    (reservoir : Reservoir σ) (elapsedNs : ℕ → ρ) (mover : BenchmarkMover) :
    Stutters rings s orderQueue statsQueue (s.step rings config reservoir elapsedNs mover) ∨
      Steps rings (s.step rings config reservoir elapsedNs mover)
        ((s.onQueues orderQueue statsQueue).step rings.queues config reservoir elapsedNs mover) := by
  cases mover with
  | producer => exact h.producerStep
  | matcher => exact h.matcherStep config.collectLatency elapsedNs
  | stats => exact h.statsStep reservoir
  | requestStop => exact Or.inr ⟨orderQueue, statsQueue, rfl, h.orders, h.samples⟩

end Step

end Implements

/-- The iteration over rings and the one over queues that it stands for. -/
def StandsFor (rings : BenchmarkRings) (s : RingIteration ρ σ) (p : Iteration ρ σ) : Prop :=
  ∃ orderQueue statsQueue, p = s.onQueues orderQueue statsQueue ∧
    Implements rings s orderQueue statsQueue

theorem standsFor_start [NatCast ρ] (rings : BenchmarkRings) (events : List InputEvent) (book : Clob)
    (latency : LatencyAccumulator ρ σ) :
    StandsFor rings (start events book latency)
      { producer := Iteration.nextPush events, book, latency } :=
  ⟨[], [], rfl, SpscQueue.holds_initial .., SpscQueue.holds_initial ..⟩

section Run

variable [Add ρ] [Sub ρ] [Mul ρ] [Div ρ] [NatCast ρ] [LT ρ] [DecidableLT ρ]

/-- **The rings implement the queues.** Every interleaving over rings is one over queues, in which the
same agents move and the book is called with the same events. -/
theorem run_onQueues (rings : BenchmarkRings) (config : BenchmarkConfig) (reservoir : Reservoir σ)
    (elapsedNs : ℕ → ρ) {s : RingIteration ρ σ} {p : Iteration ρ σ} (h : StandsFor rings s p)
    (schedule : List BenchmarkMover) :
    ∃ schedule', (∀ mover ∈ schedule', mover ∈ schedule) ∧
      StandsFor rings (Interleaving.run (step rings config reservoir elapsedNs) s schedule).1
        (Interleaving.run (Iteration.step rings.queues config reservoir elapsedNs) p schedule').1 ∧
      (Interleaving.run (Iteration.step rings.queues config reservoir elapsedNs) p schedule').2
        = (Interleaving.run (step rings config reservoir elapsedNs) s schedule).2 := by
  have hstep : ∀ s p mover, StandsFor rings s p →
      ∃ movers, (∀ mover' ∈ movers, mover = mover') ∧
        StandsFor rings (step rings config reservoir elapsedNs s mover).1
          (Interleaving.run (Iteration.step rings.queues config reservoir elapsedNs) p movers).1 ∧
        (Interleaving.run (Iteration.step rings.queues config reservoir elapsedNs) p movers).2
          = (step rings config reservoir elapsedNs s mover).2 := by
    rintro s p mover ⟨orderQueue, statsQueue, rfl, h⟩
    rcases h.step config reservoir elapsedNs mover with
      hstutters | ⟨orderQueue', statsQueue', hsame, himplements⟩
    · exact ⟨[], by simp, ⟨orderQueue, statsQueue, hstutters.same.symm, hstutters.implements⟩,
        hstutters.silent.symm⟩
    · refine ⟨[mover], by simp, ?_⟩
      rw [Interleaving.run_singleton, hsame]
      exact ⟨⟨orderQueue', statsQueue', rfl, himplements⟩, rfl⟩
  obtain ⟨schedule', hanswers, hrelated, hsame⟩ := Interleaving.run_simulation hstep h schedule
  exact ⟨schedule', fun mover hmover => by simpa using hanswers mover hmover, hrelated, hsame⟩

end Run

end RingIteration

/-! ### An iteration over rings -/

section RunRingIteration

variable {δ τ : Type} [Add δ] [Sub δ] [Mul δ] [Div δ] [NatCast δ] [LT δ] [DecidableLT δ]

/-- **An iteration over rings that has been joined** has called the book with each measured event, in order,
and its counter and its latencies are those of a sequential run. -/
theorem runRingIteration_exact (rings : BenchmarkRings) (config : BenchmarkConfig) (reservoir : Reservoir τ)
    {events : List InputEvent} (horders : ∀ event ∈ events, OrderGenerator.IsOrder event)
    {latency : LatencyAccumulator δ τ} {elapsedNs : ℕ → δ}
    {schedule : List (AgentSystem.Mover BenchmarkMover)} (hstop : .loop .requestStop ∉ schedule)
    {s : AgentSystem (RingIteration δ τ) BenchmarkMover} {processed : List InputEvent}
    (h : runRingIteration rings config reservoir events latency elapsedNs schedule = .ok (s, processed))
    (hmain : s.main = .returned) :
    processed = events.drop config.warmupEvents.toNat ∧
      ∃ warm warmEmitted emitted,
        Clob.run .int64 {} (events.take config.warmupEvents.toNat) = .ok (warm, warmEmitted) ∧
        warm.run .int64 processed = .ok (s.loops.book, emitted) ∧
        s.loops.tradeCounter = UInt64.ofNat (trades emitted).length ∧
        s.loops.latency = ((List.range (if config.collectLatency then processed.length else 0)).map
          elapsedNs).foldl (LatencyAccumulator.add reservoir) latency := by
  rw [runRingIteration] at h
  cases hwarmUp : warmUp config.warmupEvents.toNat events {} 0 with
  | error fault =>
    rw [hwarmUp] at h
    cases h
  | ok warmed =>
    obtain ⟨warm, tradeCounter⟩ := warmed
    obtain ⟨-, warmEmitted, hwarm, -⟩ := warmUp_eq_ok_iff.mp hwarmUp
    rw [hwarmUp, ok_bind] at h
    have hsystem := Except.ok.inj h
    have hexited := AgentSystem.run_joined
      (fun s => RingIteration.returned_step rings config reservoir elapsedNs s)
      (.start (events.drop config.warmupEvents.toNat) warm latency) schedule (by rw [hsystem]; exact hmain)
    obtain ⟨schedule', hmovers, hloops⟩ := AgentSystem.run_loops Iteration.agents RingIteration.returned
      (RingIteration.step rings config reservoir elapsedNs)
      (.initial Iteration.agents (.start (events.drop config.warmupEvents.toNat) warm latency)) schedule
    obtain ⟨schedule'', hmovers', ⟨orderQueue, statsQueue, hqueues, -⟩, hprocessed⟩ :=
      RingIteration.run_onQueues rings config reservoir elapsedNs
        (RingIteration.standsFor_start rings (events.drop config.warmupEvents.toNat) warm latency) schedule'
    rw [hsystem] at hexited hloops
    rw [show Interleaving.run (RingIteration.step rings config reservoir elapsedNs)
      (.start (events.drop config.warmupEvents.toNat) warm latency) schedule' = (s.loops, processed)
      from hloops] at hqueues hprocessed
    obtain ⟨hall, emitted, hrun, htrades, hlatency⟩ := Measured.run_exited
      (r := (s.loops.onQueues orderQueue statsQueue, processed)) horders hwarm rings.queues config reservoir
      elapsedNs latency (fun hmem => hstop (hmovers _ (hmovers' _ hmem))) (Prod.ext hqueues hprocessed)
      fun agent hagent => by
        rw [RingIteration.returned_onQueues]
        exact hexited agent hagent
    exact ⟨hall, warm, warmEmitted, emitted, hwarm, hrun, htrades, hlatency⟩

end RunRingIteration

/-- The threads in turn, often enough for the steps of the calls. -/
def ringTurns : List (AgentSystem.Mover BenchmarkMover) :=
  (List.replicate 80 [.main, .loop .producer, .loop .matcher, .loop .stats]).flatten

/-- Two rings of two slots each. -/
def smallRings : BenchmarkRings where
  order := ⟨2, by decide, by decide⟩
  stats := ⟨2, by decide, by decide⟩

theorem runRingIteration_exact_crossed :
    ∃ s processed, runRingIteration smallRings ⟨1, 1, true⟩ firstReservoir crossedEvents
        (LatencyAccumulator.create (0 : ℚ) 100 ()) (fun n => n + 1) ringTurns = .ok (s, processed) ∧
      s.main = .returned ∧ processed = crossedEvents.drop 1 ∧ s.loops.tradeCounter = 1 ∧
      s.loops.latency = [1, 2].foldl (.add firstReservoir) (LatencyAccumulator.create 0 100 ()) := by
  have hmain : (runRingIteration smallRings ⟨1, 1, true⟩ firstReservoir crossedEvents
      (LatencyAccumulator.create (0 : ℚ) 100 ()) (fun n => n + 1) ringTurns).map
        (fun r => (r.1.main, r.1.loops.tradeCounter)) = .ok (.returned, 1) := by
    decide +kernel
  have horders : ∀ event ∈ crossedEvents, OrderGenerator.IsOrder event := by
    unfold OrderGenerator.IsOrder
    decide +kernel
  cases hr : runRingIteration smallRings ⟨1, 1, true⟩ firstReservoir crossedEvents
      (LatencyAccumulator.create (0 : ℚ) 100 ()) (fun n => n + 1) ringTurns with
  | error fault =>
    rw [hr] at hmain
    cases hmain
  | ok r =>
    obtain ⟨s, processed⟩ := r
    rw [hr] at hmain
    obtain ⟨hreturned, htraded⟩ := Prod.ext_iff.mp (Except.ok.inj hmain)
    obtain ⟨hprocessed, -, -, -, -, -, -, hlatency⟩ :=
      runRingIteration_exact smallRings ⟨1, 1, true⟩ firstReservoir horders (by decide) hr hreturned
    rw [hprocessed] at hlatency
    have hreadings : (List.range (crossedEvents.drop 1).length).map (fun n : ℕ => (n : ℚ) + 1) = [1, 2] := by
      decide +kernel
    refine ⟨s, processed, rfl, hreturned, hprocessed, htraded, ?_⟩
    rw [hlatency]
    exact congrArg (List.foldl _ _) hreadings

end MatchingEngine
