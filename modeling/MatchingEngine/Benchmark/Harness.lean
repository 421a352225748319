import MatchingEngine.Benchmark.OrderGenerator
import MatchingEngine.Book.OutputSize
import MatchingEngine.Runtime.AgentSystem
import MatchingEngine.Runtime.Pipeline
import MatchingEngine.Model.Benchmark
import MatchingEngine.Benchmark.Reservoir

/-!
# The measured work

In an iteration nobody asks to stop, so nothing is given up: what the book has been called with, what
is in the order queue and what the producer has still to push are together the measured events and the
shutdown, in order (`Measured.orders`), and the same goes for the samples on their way to the stats
agent (`Measured.pings`). When all have exited the shutdown has come through on both ways, and with it
all that was in front of it. So an iteration does the same work under every interleaving.
-/

namespace MatchingEngine

open Channel Sampling

/-! ### The warm-up -/

/-- The warm-up leaves the book as a sequential run does, and it has its events. -/
theorem warmUp_eq_ok_iff {n : Nat} {events : List InputEvent} {book book' : Clob}
    {tradeCounter tradeCounter' : UInt64} :
    warmUp n events book tradeCounter = .ok (book', tradeCounter') ↔
      n ≤ events.length ∧ ∃ emitted, book.run .int64 (events.take n) = .ok (book', emitted) ∧
        tradeCounter' = tradeCounter + UInt64.ofNat (trades emitted).length := by
  induction n generalizing events book tradeCounter with
  | zero =>
    constructor
    · intro h
      cases h
      exact ⟨Nat.zero_le _, [], rfl, (UInt64.add_zero _).symm⟩
    · rintro ⟨-, emitted, hrun, rfl⟩
      cases hrun
      exact congrArg (fun k => Except.ok (book', k)) (UInt64.add_zero _).symm
  | succ n ih =>
    cases events with
    | nil =>
      constructor
      · nofun
      · rintro ⟨hle, -⟩
        cases hle
    | cons event events =>
      rw [warmUp, List.take_succ_cons, List.length_cons, Nat.succ_le_succ_iff]
      cases hinput : book.onInput .int64 event with
      | error fault =>
        constructor
        · nofun
        · rintro ⟨-, emitted, hrun, -⟩
          simp only [Clob.run, hinput] at hrun
          cases hrun
      | ok r =>
        obtain ⟨book₁, first⟩ := r
        simp only [ok_bind, ih, Clob.run, hinput]
        refine and_congr_right fun _ => ?_
        have hcount : ∀ rest, tradeCounter + UInt64.ofNat (trades (first ++ rest)).length
            = countTrades tradeCounter first + UInt64.ofNat (trades rest).length := by
          intro rest
          rw [countTrades_eq, trades_append, List.length_append, UInt64.ofNat_add, UInt64.add_assoc]
        constructor
        · rintro ⟨rest, hrun, rfl⟩
          refine ⟨first ++ rest, ?_, (hcount rest).symm⟩
          rw [hrun]
          rfl
        · rintro ⟨emitted, hrun, rfl⟩
          cases hrest : book₁.run .int64 (events.take n) with
          | error fault =>
            rw [hrest] at hrun
            cases hrun
          | ok r =>
            rw [hrest] at hrun
            cases hrun
            exact ⟨r.2, rfl, hcount r.2⟩

/-! ### The agents as senders -/

namespace ProducerLoop

/-- The events that the producer has still to push. -/
def pending : ProducerLoop → List InputEvent
  | .pushing loop (some events) => loop.event :: (events ++ [.shutdown])
  | .pushing loop none => [loop.event]
  | .testing events => events ++ [.shutdown]
  | .done => []

@[simp] theorem pending_pushing (loop : PushLoop InputEvent) (events : Option (List InputEvent)) :
    pending (.pushing loop events) = loop.event :: pending (Iteration.behindPush events) := by
  cases events <;> rfl

@[simp] theorem pending_nextPush (events : List InputEvent) :
    pending (Iteration.nextPush events) = events ++ [.shutdown] := by
  cases events <;> rfl

end ProducerLoop

namespace TimedMatcher

variable {ρ : Type}

/-- The event that the matcher has still to push. -/
def pending : TimedMatcher ρ → List (StatsEvent ρ)
  | .pushing loop _ => [loop.event]
  | _ => []

/-- The matcher has taken the shutdown. -/
def exiting : TimedMatcher ρ → Bool
  | .pushing _ exits => exits
  | .done => true
  | _ => false

end TimedMatcher

/-- The stats agent has taken the shutdown. -/
def StatsLoop.ended : StatsLoop → Bool
  | .finished => true
  | _ => false

/-- The last item of a stream, if it has come so far. -/
def lastIf {α : Type} (came : Bool) (a : α) : List α := if came then [a] else []

namespace Iteration

variable {ρ σ : Type} {s : Iteration ρ σ}

theorem producer_eq_done (h : s.returned .producer = true) : s.producer = .done := by
  cases hproducer : s.producer with
  | done => rfl
  | _ => simp [returned, hproducer] at h

theorem matcher_eq_done (h : s.returned .matcher = true) : s.matcher = .done := by
  cases hmatcher : s.matcher with
  | done => rfl
  | _ => simp [returned, hmatcher] at h

theorem stats_eq_of_returned (h : s.returned .stats = true) :
    s.stats = .stopped ∨ s.stats = .finished := by
  cases hstats : s.stats with
  | stopped => exact Or.inl rfl
  | finished => exact Or.inr rfl
  | _ => simp [returned, hstats] at h

theorem producerStep_frame (capacities : BenchmarkCapacities) (s : Iteration ρ σ) :
    ∃ producer orderQueue, s.producerStep capacities = { s with producer, orderQueue } := by
  rw [producerStep]
  split
  · split <;> exact ⟨_, _, rfl⟩
  · exact ⟨_, _, rfl⟩
  · exact ⟨_, _, rfl⟩

theorem handle_frame (collectLatency : Bool) (elapsedNs : ℕ → ρ) (s : Iteration ρ σ) (event : InputEvent) :
    ∃ matcher book tradeCounter timed, (s.handle collectLatency elapsedNs event).1
      = { s with matcher, book, tradeCounter, timed } := by
  cases event with
  | shutdown => exact ⟨_, _, _, _, rfl⟩
  | addOrder _ | cancelOrder _ =>
    rw [handle]
    split
    · rw [behindBook]
      split <;> exact ⟨_, _, _, _, rfl⟩
    · exact ⟨_, _, _, _, rfl⟩
    · nofun

theorem matcherStep_frame (capacities : BenchmarkCapacities) (collectLatency : Bool) (elapsedNs : ℕ → ρ)
    (s : Iteration ρ σ) :
    ∃ matcher book tradeCounter timed orderQueue statsQueue,
      (s.matcherStep capacities collectLatency elapsedNs).1
        = { s with matcher, book, tradeCounter, timed, orderQueue, statsQueue } := by
  rw [matcherStep]
  split
  · exact ⟨_, _, _, _, _, _, rfl⟩
  · split
    · exact ⟨_, _, _, _, _, _, rfl⟩
    · next event orderQueue _ =>
      obtain ⟨matcher, book, tradeCounter, timed, hhandle⟩ :=
        handle_frame collectLatency elapsedNs { s with orderQueue } event
      exact ⟨matcher, book, tradeCounter, timed, orderQueue, s.statsQueue, hhandle⟩
  · split <;> exact ⟨_, _, _, _, _, _, rfl⟩
  · exact ⟨_, _, _, _, _, _, rfl⟩
  · exact ⟨_, _, _, _, _, _, rfl⟩

section Step

variable [Add ρ] [Sub ρ] [Mul ρ] [Div ρ] [NatCast ρ] [LT ρ] [DecidableLT ρ]

theorem statsStep_frame (reservoir : Reservoir σ) (s : Iteration ρ σ) :
    ∃ stats latency statsQueue, s.statsStep reservoir = { s with stats, latency, statsQueue } := by
  rw [statsStep]
  split
  · exact ⟨_, _, _, rfl⟩
  · split <;> exact ⟨_, _, _, rfl⟩
  · exact ⟨_, _, _, rfl⟩
  · exact ⟨_, _, _, rfl⟩

/-- An agent that has returned is not back in its loop after a step. -/
theorem returned_step (capacities : BenchmarkCapacities) (config : BenchmarkConfig) (reservoir : Reservoir σ)
    (elapsedNs : ℕ → ρ) (s : Iteration ρ σ) (agent mover : BenchmarkMover) (h : s.returned agent = true) :
    (s.step capacities config reservoir elapsedNs mover).1.returned agent = true := by
  cases mover with
  | requestStop => cases agent <;> exact h
  | producer =>
    obtain ⟨producer, orderQueue, hframe⟩ := s.producerStep_frame capacities
    cases agent with
    | producer =>
      rw [step, producerStep, producer_eq_done h]
      exact h
    | _ =>
      rw [step, hframe]
      exact h
  | matcher =>
    obtain ⟨matcher, book, tradeCounter, timed, orderQueue, statsQueue, hframe⟩ :=
      s.matcherStep_frame capacities config.collectLatency elapsedNs
    cases agent with
    | matcher =>
      rw [step, matcherStep, matcher_eq_done h]
      exact h
    | _ =>
      rw [step, hframe]
      exact h
  | stats =>
    obtain ⟨stats, latency, statsQueue, hframe⟩ := s.statsStep_frame reservoir
    cases agent with
    | stats =>
      rcases stats_eq_of_returned h with hstats | hstats
      · rw [step, statsStep, hstats]
        exact h
      · rw [step, statsStep, hstats]
        exact h
    | _ =>
      rw [step, hframe]
      exact h

end Step

end Iteration

/-! ### The invariant -/

section Measured

variable {ρ σ : Type} [Add ρ] [Sub ρ] [Mul ρ] [Div ρ] [NatCast ρ] [LT ρ] [DecidableLT ρ]

/-- In an iteration from the warm book the book has been called with `processed`, the stats agent has
received `samples`. -/
structure Measured (config : BenchmarkConfig) (reservoir : Reservoir σ) (elapsedNs : ℕ → ρ) (warm : Clob)
    (latency : LatencyAccumulator ρ σ) (measured : List InputEvent) (s : Iteration ρ σ)
    (processed : List InputEvent) (emitted : List OutputEvent) (samples : List ρ) : Prop where
  stop : s.stop = false
  stats : s.stats ≠ .stopped
  run_eq : warm.run .int64 processed = .ok (s.book, emitted)
  trades_eq : s.tradeCounter = UInt64.ofNat (trades emitted).length
  orders : processed ++ lastIf s.matcher.exiting .shutdown ++ s.orderQueue ++ s.producer.pending
    = measured ++ [.shutdown]
  timed_eq : s.timed = if config.collectLatency then processed.length else 0
  pings : samples.map .ping ++ lastIf s.stats.ended .shutdown ++ s.statsQueue ++ s.matcher.pending
    = ((List.range s.timed).map elapsedNs).map .ping ++ lastIf s.matcher.exiting .shutdown
  latency_eq : s.latency = samples.foldl (LatencyAccumulator.add reservoir) latency

namespace Measured

variable {capacities : BenchmarkCapacities} {config : BenchmarkConfig} {reservoir : Reservoir σ}
  {elapsedNs : ℕ → ρ} {warm : Clob} {latency : LatencyAccumulator ρ σ} {warmed measured : List InputEvent}
  {s : Iteration ρ σ} {processed : List InputEvent} {emitted : List OutputEvent} {samples : List ρ}

/-- An iteration in front of its first step. -/
theorem start (config : BenchmarkConfig) (reservoir : Reservoir σ) (elapsedNs : ℕ → ρ) (warm : Clob)
    (latency : LatencyAccumulator ρ σ) (measured : List InputEvent) :
    Measured config reservoir elapsedNs warm latency measured
      { producer := Iteration.nextPush measured, book := warm, latency } [] [] [] where
  stop := rfl
  stats := StatsLoop.noConfusion
  run_eq := rfl
  trades_eq := rfl
  orders := ProducerLoop.pending_nextPush measured
  timed_eq := by
    cases config.collectLatency <;> rfl
  pings := rfl
  latency_eq := rfl

section Step

variable (h : Measured config reservoir elapsedNs warm latency measured s processed emitted samples)

include h

theorem with_producer {producer : ProducerLoop} {orderQueue : List InputEvent}
    (horders : orderQueue ++ producer.pending = s.orderQueue ++ s.producer.pending) :
    Measured config reservoir elapsedNs warm latency measured { s with producer, orderQueue } processed emitted
      samples := by
  refine ⟨h.stop, h.stats, h.run_eq, h.trades_eq, ?_, h.timed_eq, h.pings, h.latency_eq⟩
  rw [List.append_assoc, horders, ← List.append_assoc]
  exact h.orders

theorem producerStep :
    Measured config reservoir elapsedNs warm latency measured (s.producerStep capacities) processed emitted
      samples := by
  cases hproducer : s.producer with
  | done =>
    rw [show s.producerStep capacities = s by simp only [Iteration.producerStep, hproducer]]
    exact h
  | testing events =>
    have hstep : s.producerStep capacities = { s with producer := Iteration.nextPush events } := by
      simp only [Iteration.producerStep, hproducer, h.stop]
      rfl
    rw [hstep]
    apply h.with_producer
    rw [hproducer, ProducerLoop.pending_nextPush]
    rfl
  | pushing loop events =>
    cases hloop : loop.step s.stop capacities.order s.orderQueue with
    | mk next orderQueue =>
      have hundisturbed := hloop
      rw [h.stop] at hundisturbed
      cases next with
      | some loop' =>
        have hstep : s.producerStep capacities
            = { s with producer := .pushing loop' events, orderQueue } := by
          simp only [Iteration.producerStep, hproducer, hloop]
        obtain ⟨hevent, hqueue⟩ := PushLoop.eq_of_some hundisturbed
        rw [hstep]
        apply h.with_producer
        rw [hproducer, hqueue, ProducerLoop.pending_pushing, ProducerLoop.pending_pushing, hevent]
      | none =>
        have hstep : s.producerStep capacities
            = { s with producer := Iteration.behindPush events, orderQueue } := by
          simp only [Iteration.producerStep, hproducer, hloop]
        rw [hstep]
        apply h.with_producer
        rw [hproducer, PushLoop.eq_of_none hundisturbed, ProducerLoop.pending_pushing,
          List.append_assoc, List.singleton_append]

/-- The book does not fault on what the matcher takes. -/
theorem onInput_ok {warmEmitted : List OutputEvent}
    (hwarm : Clob.run .int64 {} warmed = .ok (warm, warmEmitted))
    (hfits : ∀ event ∈ warmed ++ measured, event.Fits .int64) (hexiting : s.matcher.exiting = false)
    {event : InputEvent} {orderQueue : List InputEvent} (hqueue : s.orderQueue = event :: orderQueue) :
    ∃ r, s.book.onInput .int64 event = .ok r := by
  have horders := h.orders
  rw [hexiting, hqueue, lastIf, if_neg Bool.false_ne_true, List.append_nil] at horders
  have hfits' : ∀ e ∈ processed ++ event :: orderQueue, e.Fits .int64 := by
    intro e he
    have hmem : e ∈ measured ++ [.shutdown] := horders ▸ List.mem_append_left _ he
    rcases List.mem_append.mp hmem with hmeasured | hlast
    · exact hfits e (List.mem_append_right _ hmeasured)
    · rw [List.mem_singleton.mp hlast]
      trivial
  have hrun : Clob.run .int64 {} (warmed ++ processed) = .ok (s.book, warmEmitted ++ emitted) := by
    rw [Clob.run_append, hwarm, ok_bind]
    simp only [h.run_eq, ok_bind]
    rfl
  obtain ⟨c, out, levels, hrun', hc⟩ := run_represents (T := .int64) (warmed ++ processed) fun e he =>
    (List.mem_append.mp he).elim (fun hwarmed => hfits e (List.mem_append_left _ hwarmed))
      fun hprocessed => hfits' e (List.mem_append_left _ hprocessed)
  obtain ⟨rfl, -⟩ := ok_unique hrun hrun'
  obtain ⟨c', levels', hinput, -⟩ := hc.onInput (hfits' event (by simp))
  exact ⟨_, hinput⟩

/-- A step of the matcher that leaves alone what it has taken. -/
theorem with_matcher {matcher : TimedMatcher ρ} {statsQueue : List (StatsEvent ρ)}
    (hexiting : matcher.exiting = s.matcher.exiting)
    (hpings : statsQueue ++ matcher.pending = s.statsQueue ++ s.matcher.pending) :
    Measured config reservoir elapsedNs warm latency measured { s with matcher, statsQueue } processed emitted
      samples := by
  refine ⟨h.stop, h.stats, h.run_eq, h.trades_eq, ?_, h.timed_eq, ?_, h.latency_eq⟩
  · rw [hexiting]
    exact h.orders
  · rw [hexiting, List.append_assoc, hpings, ← List.append_assoc]
    exact h.pings

theorem take_shutdown (hmatcher : s.matcher = .popping) {orderQueue : List InputEvent}
    (hqueue : s.orderQueue = .shutdown :: orderQueue) :
    Measured config reservoir elapsedNs warm latency measured
      { s with orderQueue, matcher := .pushing (.test .shutdown) true } processed emitted
      samples := by
  have horders := h.orders
  have hpings := h.pings
  rw [hmatcher] at horders hpings
  refine ⟨h.stop, h.stats, h.run_eq, h.trades_eq, ?_, h.timed_eq, ?_, h.latency_eq⟩
  · rw [hqueue] at horders
    simpa [lastIf, TimedMatcher.exiting] using horders
  · simp only [lastIf, TimedMatcher.exiting, TimedMatcher.pending, Bool.false_eq_true, if_false,
      List.append_nil, if_true, PushLoop.event] at hpings ⊢
    rw [hpings]

/-- The book is called with an event, and the call timed if timings are collected. -/
theorem take_event (hmatcher : s.matcher = .popping) {event : InputEvent} {orderQueue : List InputEvent}
    (hqueue : s.orderQueue = event :: orderQueue) {book : Clob} {out : List OutputEvent}
    (hinput : s.book.onInput .int64 event = .ok (book, out)) :
    Measured config reservoir elapsedNs warm latency measured
      (Iteration.behindBook config.collectLatency elapsedNs
        { s with orderQueue, book, tradeCounter := countTrades s.tradeCounter out })
      (processed ++ [event]) (emitted ++ out) samples := by
  have hrun := Clob.run_concat h.run_eq hinput
  have htrades : countTrades s.tradeCounter out = UInt64.ofNat (trades (emitted ++ out)).length := by
    rw [countTrades_eq, h.trades_eq, trades_append, List.length_append, UInt64.ofNat_add]
  have horders := h.orders
  have htimed := h.timed_eq
  have hpings := h.pings
  rw [hmatcher, hqueue] at horders
  rw [hmatcher] at hpings
  simp only [lastIf, TimedMatcher.exiting, TimedMatcher.pending, Bool.false_eq_true, if_false,
    List.append_nil] at horders hpings
  cases hcollect : config.collectLatency with
  | false =>
    rw [hcollect, if_neg Bool.false_ne_true] at htimed
    refine ⟨h.stop, h.stats, hrun, htrades, ?_, ?_, ?_, h.latency_eq⟩
    · simpa [Iteration.behindBook, lastIf, TimedMatcher.exiting] using horders
    · simpa [Iteration.behindBook, hcollect] using htimed
    · simpa [Iteration.behindBook, lastIf, TimedMatcher.exiting, TimedMatcher.pending] using hpings
  | true =>
    rw [hcollect, if_pos rfl] at htimed
    refine ⟨h.stop, h.stats, hrun, htrades, ?_, ?_, ?_, h.latency_eq⟩
    · simpa [Iteration.behindBook, lastIf, TimedMatcher.exiting] using horders
    · simpa [Iteration.behindBook, hcollect] using htimed
    · simp only [Iteration.behindBook, if_true, lastIf, TimedMatcher.exiting, TimedMatcher.pending,
        Bool.false_eq_true, if_false, List.append_nil, PushLoop.event, List.range_succ, List.map_append,
        List.map_singleton]
      rw [hpings]

theorem matcherStep {warmEmitted : List OutputEvent}
    (hwarm : Clob.run .int64 {} warmed = .ok (warm, warmEmitted))
    (hfits : ∀ event ∈ warmed ++ measured, event.Fits .int64) :
    ∃ emitted', Measured config reservoir elapsedNs warm latency measured
      (s.matcherStep capacities config.collectLatency elapsedNs).1
      (processed ++ (s.matcherStep capacities config.collectLatency elapsedNs).2) emitted' samples := by
  cases hmatcher : s.matcher with
  | done =>
    have hstep : s.matcherStep capacities config.collectLatency elapsedNs = (s, []) := by
      simp only [Iteration.matcherStep, hmatcher]
    rw [hstep, List.append_nil]
    exact ⟨emitted, h⟩
  | faulted fault =>
    have hstep : s.matcherStep capacities config.collectLatency elapsedNs = (s, []) := by
      simp only [Iteration.matcherStep, hmatcher]
    rw [hstep, List.append_nil]
    exact ⟨emitted, h⟩
  | testing =>
    have hstep : s.matcherStep capacities config.collectLatency elapsedNs
        = ({ s with matcher := .popping }, []) := by
      simp only [Iteration.matcherStep, hmatcher, h.stop]
      rfl
    rw [hstep, List.append_nil]
    refine ⟨emitted, h.with_matcher ?_ ?_⟩
    · rw [hmatcher]
      rfl
    · rw [hmatcher]
      rfl
  | popping =>
    cases hqueue : s.orderQueue with
    | nil =>
      have hstep : s.matcherStep capacities config.collectLatency elapsedNs
          = ({ s with matcher := .testing }, []) := by
        simp only [Iteration.matcherStep, hmatcher, hqueue]
      rw [hstep, List.append_nil]
      refine ⟨emitted, h.with_matcher ?_ ?_⟩
      · rw [hmatcher]
        rfl
      · rw [hmatcher]
        rfl
    | cons event orderQueue =>
      have hstep : s.matcherStep capacities config.collectLatency elapsedNs
          = Iteration.handle config.collectLatency elapsedNs { s with orderQueue } event := by
        simp only [Iteration.matcherStep, hmatcher, hqueue]
      obtain ⟨⟨book, out⟩, hinput⟩ := h.onInput_ok hwarm hfits (by rw [hmatcher]; rfl) hqueue
      rw [hstep]
      cases event with
      | shutdown =>
        rw [Iteration.handle, List.append_nil]
        exact ⟨emitted, h.take_shutdown hmatcher hqueue⟩
      | addOrder event =>
        simp only [Iteration.handle, hinput]
        exact ⟨_, h.take_event hmatcher hqueue hinput⟩
      | cancelOrder event =>
        simp only [Iteration.handle, hinput]
        exact ⟨_, h.take_event hmatcher hqueue hinput⟩
  | pushing loop exits =>
    cases hloop : loop.step s.stop capacities.stats s.statsQueue with
    | mk next statsQueue =>
      have hundisturbed := hloop
      rw [h.stop] at hundisturbed
      cases next with
      | some loop' =>
        have hstep : s.matcherStep capacities config.collectLatency elapsedNs
            = ({ s with matcher := .pushing loop' exits, statsQueue }, []) := by
          simp only [Iteration.matcherStep, hmatcher, hloop]
        obtain ⟨hevent, hqueue⟩ := PushLoop.eq_of_some hundisturbed
        rw [hstep, List.append_nil]
        refine ⟨emitted, h.with_matcher ?_ ?_⟩
        · rw [hmatcher]
          rfl
        · rw [hmatcher, hqueue, TimedMatcher.pending, TimedMatcher.pending, hevent]
      | none =>
        have hstep : s.matcherStep capacities config.collectLatency elapsedNs
            = ({ s with matcher := if exits then .done else .testing, statsQueue }, []) := by
          simp only [Iteration.matcherStep, hmatcher, hloop]
        rw [hstep, List.append_nil]
        refine ⟨emitted, h.with_matcher ?_ ?_⟩
        · rw [hmatcher]
          cases exits <;> rfl
        · rw [hmatcher, PushLoop.eq_of_none hundisturbed]
          cases exits <;> exact List.append_nil _

theorem with_stats {stats : StatsLoop} (hstats : stats ≠ .stopped) (hended : stats.ended = s.stats.ended) :
    Measured config reservoir elapsedNs warm latency measured { s with stats } processed emitted samples := by
  refine ⟨h.stop, hstats, h.run_eq, h.trades_eq, h.orders, h.timed_eq, ?_, h.latency_eq⟩
  rw [hended]
  exact h.pings

theorem statsStep :
    ∃ samples', Measured config reservoir elapsedNs warm latency measured (s.statsStep reservoir) processed
      emitted samples' := by
  cases hstats : s.stats with
  | stopped => exact absurd hstats h.stats
  | finished =>
    rw [show s.statsStep reservoir = s by simp only [Iteration.statsStep, hstats]]
    exact ⟨samples, h⟩
  | testing =>
    have hstep : s.statsStep reservoir = { s with stats := .popping } := by
      simp only [Iteration.statsStep, hstats, h.stop]
      rfl
    rw [hstep]
    exact ⟨samples, h.with_stats StatsLoop.noConfusion (by rw [hstats]; rfl)⟩
  | popping =>
    have hpings := h.pings
    rw [hstats] at hpings
    cases hqueue : s.statsQueue with
    | nil =>
      have hstep : s.statsStep reservoir = { s with stats := .testing } := by
        simp only [Iteration.statsStep, hstats, hqueue]
      rw [hstep]
      exact ⟨samples, h.with_stats StatsLoop.noConfusion (by rw [hstats]; rfl)⟩
    | cons event statsQueue =>
      rw [hqueue] at hpings
      cases event with
      | shutdown =>
        have hstep : s.statsStep reservoir = { s with stats := .finished, statsQueue } := by
          simp only [Iteration.statsStep, hstats, hqueue]
        rw [hstep]
        refine ⟨samples, h.stop, StatsLoop.noConfusion, h.run_eq, h.trades_eq, h.orders, h.timed_eq, ?_,
          h.latency_eq⟩
        rw [← hpings]
        simp [lastIf, StatsLoop.ended]
      | ping latencyNs =>
        have hstep : s.statsStep reservoir
            = { s with stats := .testing, latency := s.latency.add reservoir latencyNs, statsQueue } := by
          simp only [Iteration.statsStep, hstats, hqueue]
        rw [hstep]
        refine ⟨samples ++ [latencyNs], h.stop, StatsLoop.noConfusion, h.run_eq, h.trades_eq, h.orders,
          h.timed_eq, ?_, ?_⟩
        · rw [← hpings]
          simp [lastIf, StatsLoop.ended]
        · rw [List.foldl_append, ← h.latency_eq]
          rfl

theorem step {warmEmitted : List OutputEvent}
    (hwarm : Clob.run .int64 {} warmed = .ok (warm, warmEmitted))
    (hfits : ∀ event ∈ warmed ++ measured, event.Fits .int64) {mover : BenchmarkMover}
    (hmover : mover ≠ .requestStop) :
    ∃ emitted' samples', Measured config reservoir elapsedNs warm latency measured
      (s.step capacities config reservoir elapsedNs mover).1
      (processed ++ (s.step capacities config reservoir elapsedNs mover).2) emitted' samples' := by
  cases mover with
  | producer =>
    refine ⟨emitted, samples, ?_⟩
    rw [Iteration.step, List.append_nil]
    exact h.producerStep
  | matcher =>
    obtain ⟨emitted', hnext⟩ := h.matcherStep hwarm hfits
    exact ⟨emitted', samples, hnext⟩
  | stats =>
    obtain ⟨samples', hnext⟩ := h.statsStep
    refine ⟨emitted, samples', ?_⟩
    rw [Iteration.step, List.append_nil]
    exact hnext
  | requestStop => exact absurd rfl hmover

/-- **When all have exited** the book has been called with each measured event, in order, and each
timing has been received. -/
theorem of_exited (hnot : .shutdown ∉ measured)
    (hexited : ∀ agent ∈ Iteration.agents, s.returned agent = true) :
    processed = measured ∧ samples = (List.range s.timed).map elapsedNs := by
  have horders := h.orders
  have hpings := h.pings
  have hproducer := Iteration.producer_eq_done (hexited .producer (by decide))
  have hmatcher := Iteration.matcher_eq_done (hexited .matcher (by decide))
  have hstats := (Iteration.stats_eq_of_returned (hexited .stats (by decide))).resolve_left h.stats
  rw [hproducer, hmatcher] at horders
  rw [hmatcher, hstats] at hpings
  simp only [lastIf, TimedMatcher.exiting, ProducerLoop.pending, if_true, List.append_nil] at horders
  simp only [lastIf, TimedMatcher.exiting, TimedMatcher.pending, StatsLoop.ended, if_true,
    List.append_nil] at hpings
  have horderQueue := eq_nil_of_mem_of_append_eq_concat horders (by simp) hnot
  have hstatsQueue := eq_nil_of_mem_of_append_eq_concat hpings (by simp) (by simp)
  rw [horderQueue, List.append_nil] at horders
  rw [hstatsQueue, List.append_nil] at hpings
  refine ⟨List.append_cancel_right horders, ?_⟩
  exact List.map_injective_iff.mpr (fun _ _ => StatsEvent.ping.inj) (List.append_cancel_right hpings)

end Step

theorem run {warmEmitted : List OutputEvent}
    (hwarm : Clob.run .int64 {} warmed = .ok (warm, warmEmitted))
    (hfits : ∀ event ∈ warmed ++ measured, event.Fits .int64) (capacities : BenchmarkCapacities)
    (config : BenchmarkConfig) (reservoir : Reservoir σ) (elapsedNs : ℕ → ρ)
    (latency : LatencyAccumulator ρ σ) {schedule : List BenchmarkMover}
    (hstop : .requestStop ∉ schedule) {r : Iteration ρ σ × List InputEvent}
    (hrun : Interleaving.run (Iteration.step capacities config reservoir elapsedNs)
      { producer := Iteration.nextPush measured, book := warm, latency } schedule = r) :
    ∃ emitted samples,
      Measured config reservoir elapsedNs warm latency measured r.1 r.2 emitted samples := by
  subst hrun
  induction schedule using List.reverseRecOn with
  | nil => exact ⟨[], [], start config reservoir elapsedNs warm latency measured⟩
  | append_singleton schedule mover ih =>
    rw [List.mem_append, List.mem_singleton, not_or] at hstop
    obtain ⟨emitted, samples, h⟩ := ih hstop.1
    rw [Interleaving.run_concat]
    exact h.step hwarm hfits (Ne.symm hstop.2)

/-- What a run behind a warm-up has done when all have exited. -/
theorem run_exited {events : List InputEvent} (horders : ∀ event ∈ events, OrderGenerator.IsOrder event)
    {n : Nat} {warmEmitted : List OutputEvent}
    (hwarm : Clob.run .int64 {} (events.take n) = .ok (warm, warmEmitted)) (capacities : BenchmarkCapacities)
    (config : BenchmarkConfig) (reservoir : Reservoir σ) (elapsedNs : ℕ → ρ)
    (latency : LatencyAccumulator ρ σ) {schedule : List BenchmarkMover}
    (hstop : .requestStop ∉ schedule) {r : Iteration ρ σ × List InputEvent}
    (hrun : Interleaving.run (Iteration.step capacities config reservoir elapsedNs)
      { producer := Iteration.nextPush (events.drop n), book := warm, latency } schedule = r)
    (hexited : ∀ agent ∈ Iteration.agents, r.1.returned agent = true) :
    r.2 = events.drop n ∧ ∃ emitted, warm.run .int64 r.2 = .ok (r.1.book, emitted) ∧
      r.1.tradeCounter = UInt64.ofNat (trades emitted).length ∧
      r.1.latency = ((List.range (if config.collectLatency then r.2.length else 0)).map elapsedNs).foldl
        (LatencyAccumulator.add reservoir) latency := by
  have hfits : ∀ event ∈ events.take n ++ events.drop n, event.Fits .int64 := by
    rw [List.take_append_drop]
    exact fun event hevent => (horders event hevent).1
  have hnot : .shutdown ∉ events.drop n := fun hmem => (horders _ (List.mem_of_mem_drop hmem)).2 rfl
  obtain ⟨emitted, samples, h⟩ :=
    run hwarm hfits capacities config reservoir elapsedNs latency hstop hrun
  obtain ⟨hprocessed, rfl⟩ := h.of_exited hnot hexited
  have hlatency := h.latency_eq
  rw [h.timed_eq] at hlatency
  exact ⟨hprocessed, emitted, h.run_eq, h.trades_eq, hlatency⟩

end Measured

end Measured

/-! ### An iteration and the loop around it -/

section RunPreset

variable {ρ σ δ τ : Type} [Doubles ρ] [Distributions ρ σ]
  [Add δ] [Sub δ] [Mul δ] [Div δ] [NatCast δ] [LT δ] [DecidableLT δ]
  {profile : MarketProfile ρ} {capacities : BenchmarkCapacities} {config : BenchmarkConfig}
  {reservoir : Reservoir τ}

theorem reserve_eq {n : UInt64} (h : n.toNat ≤ maxEvents) : reserve n = some () := if_pos h

theorem le_of_reserve {n : UInt64} {u : Unit} (h : reserve n = some u) : n.toNat ≤ maxEvents := by
  rw [reserve] at h
  split at h
  · assumption
  · cases h

/-- What is generated are as many orders as `reserve` has made room for. -/
theorem ensures_preGenerate (hprofile : profile.Fits)
    (hround : ∀ x : ρ, SignedInt.int64.Fits (Doubles.lround x)) (warmupEvents : UInt64) :
    Ensures (preGenerate profile warmupEvents : Sampling σ (List InputEvent)) fun events =>
      events.length = (warmupEvents + profile.numOrders).toNat ∧ events.length ≤ maxEvents ∧
        ∀ event ∈ events, OrderGenerator.IsOrder event := by
  have hgenerate : Ensures (OrderGenerator.generate profile (warmupEvents + profile.numOrders).toNat
      (OrderGenerator.create profile) [] : Sampling σ (List InputEvent × OrderGenerator ρ)) _ :=
    OrderGenerator.ensures_generate hprofile hround _ (fun _ => nofun) fun _ => nofun
  rw [preGenerate]
  refine (ensures_lift fun _ => le_of_reserve).bind fun _ hle => ?_
  refine hgenerate.bind fun r hr => (yields_pure ?_).ensures
  have hlength : r.1.length = (warmupEvents + profile.numOrders).toNat := by
    rw [hr.1, List.length_nil, Nat.zero_add]
  exact ⟨hlength, hlength ▸ hle, hr.2⟩

/-- There are no more trades than events. -/
theorem length_trades_le {events : List InputEvent} {book : Clob} {emitted : List OutputEvent}
    (hfits : ∀ event ∈ events, event.Fits .int64)
    (hrun : Clob.run .int64 {} events = .ok (book, emitted)) :
    (trades emitted).length ≤ events.length := by
  obtain ⟨book', emitted', hrun', hle, -⟩ := run_outputSize events hfits
  obtain ⟨-, rfl⟩ := ok_unique hrun' hrun
  have hadds := List.countP_le_length (p := InputEvent.isAdd) (l := events)
  omega

/-- What an iteration has done when all its agents have returned. -/
structure Completed (config : BenchmarkConfig) (reservoir : Reservoir τ) (numOrders : UInt64)
    (elapsedNs : ℕ → δ) (measured : List InputEvent) (book : Clob) (traded : Nat)
    (latency : LatencyAccumulator δ τ) (s : Iteration δ τ) (processed : List InputEvent) : Prop where
  length_eq : measured.length = numOrders.toNat
  processed_eq : processed = measured
  book_eq : s.book = book
  trades_eq : s.tradeCounter = UInt64.ofNat traded
  latency_eq : s.latency = ((List.range (if config.collectLatency then numOrders.toNat else 0)).map
    elapsedNs).foldl (LatencyAccumulator.add reservoir) latency

section Iteration

variable {events : List InputEvent} {warm : Clob} {warmEmitted : List OutputEvent}
  (hwarm : Clob.run .int64 {} (events.take config.warmupEvents.toNat) = .ok (warm, warmEmitted))

include hwarm

/-- An iteration is a run of its threads, if the warm-up has its events. -/
theorem runIteration_eq_ok_iff {latency : LatencyAccumulator δ τ} {elapsedNs : ℕ → δ}
    {schedule : List (AgentSystem.Mover BenchmarkMover)}
    {r : AgentSystem (Iteration δ τ) BenchmarkMover × List InputEvent} :
    runIteration capacities config reservoir events latency elapsedNs schedule = .ok r ↔
      config.warmupEvents.toNat ≤ events.length ∧
        Interleaving.run
          (AgentSystem.step Iteration.agents Iteration.returned
            (Iteration.step capacities config reservoir elapsedNs))
          (.initial Iteration.agents
            { producer := Iteration.nextPush (events.drop config.warmupEvents.toNat), book := warm, latency })
          schedule = r := by
  rw [runIteration]
  constructor
  · intro h
    cases hwarmUp : warmUp config.warmupEvents.toNat events {} 0 with
    | error fault =>
      rw [hwarmUp] at h
      cases h
    | ok warmed =>
      obtain ⟨book, tradeCounter⟩ := warmed
      obtain ⟨hle, emitted, hrun, -⟩ := warmUp_eq_ok_iff.mp hwarmUp
      obtain ⟨rfl, -⟩ := ok_unique hrun hwarm
      rw [hwarmUp, ok_bind] at h
      exact ⟨hle, Except.ok.inj h⟩
  · rintro ⟨hle, hrun⟩
    rw [warmUp_eq_ok_iff.mpr ⟨hle, warmEmitted, hwarm, rfl⟩, ok_bind]
    exact congrArg Except.ok hrun

theorem completed_runIteration {numOrders : UInt64}
    (hlength : events.length = (config.warmupEvents + numOrders).toNat)
    (horders : ∀ event ∈ events, OrderGenerator.IsOrder event) {book : Clob} {emitted : List OutputEvent}
    (hrun : warm.run .int64 (events.drop config.warmupEvents.toNat) = .ok (book, emitted))
    {latency : LatencyAccumulator δ τ} {elapsedNs : ℕ → δ}
    {schedule : List (AgentSystem.Mover BenchmarkMover)} (hstop : .loop .requestStop ∉ schedule)
    {s : AgentSystem (Iteration δ τ) BenchmarkMover} {processed : List InputEvent}
    (h : runIteration capacities config reservoir events latency elapsedNs schedule = .ok (s, processed))
    (hexited : ∀ agent ∈ Iteration.agents, s.loops.returned agent = true) :
    Completed config reservoir numOrders elapsedNs (events.drop config.warmupEvents.toNat) book
      (trades emitted).length latency s.loops processed := by
  obtain ⟨hle, hsystem⟩ := (runIteration_eq_ok_iff hwarm).mp h
  have hmeasured : (events.drop config.warmupEvents.toNat).length = numOrders.toNat := by
    -- were the sum too large there would be fewer events than the warm-up takes
    have hsum := UInt64.toNat_add config.warmupEvents numOrders
    have hlt := numOrders.toNat_lt
    have hlt' := config.warmupEvents.toNat_lt
    rw [List.length_drop]
    omega
  obtain ⟨schedule', hmovers, hloops⟩ := AgentSystem.run_loops Iteration.agents Iteration.returned
    (Iteration.step capacities config reservoir elapsedNs) (.initial Iteration.agents
      { producer := Iteration.nextPush (events.drop config.warmupEvents.toNat), book := warm, latency })
    schedule
  rw [hsystem] at hloops
  obtain ⟨hprocessed, emitted', hrun', htrades, hlatency⟩ := Measured.run_exited horders hwarm capacities
    config reservoir elapsedNs latency (fun hmem => hstop (hmovers _ hmem)) hloops hexited
  rw [hprocessed] at hrun' hlatency
  rw [hmeasured] at hlatency
  obtain ⟨hbook, rfl⟩ := ok_unique hrun' hrun
  exact ⟨hmeasured, hprocessed, hbook, htrades, hlatency⟩

end Iteration

theorem runIterations_totals {events : List InputEvent} {numOrders : UInt64} {traded : Nat}
    {measured : List InputEvent} {book : Clob} {elapsedNs : Nat → ℕ → δ}
    {schedules : Nat → List (AgentSystem.Mover BenchmarkMover)}
    (hcompleted : ∀ latency i s processed,
      runIteration capacities config reservoir events latency (elapsedNs i) (schedules i)
          = .ok (s, processed) → s.main = .returned →
        Completed config reservoir numOrders (elapsedNs i) measured book traded latency s.loops processed)
    {n : Nat} {agg result : PresetResult δ τ}
    (h : runIterations capacities config reservoir numOrders events elapsedNs schedules n agg
      = some result) :
    result.totalOrders = agg.totalOrders + UInt64.ofNat n * numOrders ∧
      result.totalTrades = agg.totalTrades + UInt64.ofNat n * UInt64.ofNat traded ∧
      result.latency.count
        = agg.latency.count + n * (if config.collectLatency then numOrders.toNat else 0) := by
  induction n generalizing agg with
  | zero =>
    obtain rfl := Option.some.inj h
    simp
  | succ n ih =>
    rw [runIterations] at h
    split at h
    · cases h
    · rename_i s processed hiteration
      split at h
      · rename_i hmain
        obtain ⟨-, -, -, htrades, hlatency⟩ := hcompleted agg.latency n s processed hiteration hmain
        obtain ⟨horders, htotal, hcount⟩ := ih h
        have hsucc : ∀ a b : UInt64, a + b + UInt64.ofNat n * b = a + UInt64.ofNat (n + 1) * b := by
          intro a b
          rw [UInt64.ofNat_add, UInt64.add_mul, UInt64.add_assoc, UInt64.add_comm b]
          exact congrArg (fun c => a + (UInt64.ofNat n * b + c)) (UInt64.one_mul b).symm
        rw [hlatency, LatencyAccumulator.count_foldl_add, List.length_map, List.length_range] at hcount
        refine ⟨?_, ?_, ?_⟩
        · rw [horders, hsucc]
        · rw [htotal, htrades, hsucc]
        · rw [hcount, Nat.succ_mul]
          omega
      · cases h

/-- Behind the threads that are joined no agent is left. -/
theorem runIteration_joined {events : List InputEvent} {latency : LatencyAccumulator δ τ}
    {elapsedNs : ℕ → δ} {schedule : List (AgentSystem.Mover BenchmarkMover)}
    {s : AgentSystem (Iteration δ τ) BenchmarkMover} {processed : List InputEvent}
    (h : runIteration capacities config reservoir events latency elapsedNs schedule = .ok (s, processed))
    (hmain : s.main = .returned) : ∀ agent ∈ Iteration.agents, s.loops.returned agent = true := by
  rw [runIteration] at h
  cases hwarmUp : warmUp config.warmupEvents.toNat events {} 0 with
  | error fault =>
    rw [hwarmUp] at h
    cases h
  | ok warmed =>
    rw [hwarmUp, ok_bind] at h
    obtain rfl := congrArg Prod.fst (Except.ok.inj h)
    exact AgentSystem.run_joined (Iteration.returned_step capacities config reservoir elapsedNs) _ schedule
      hmain

end RunPreset

/-- Uniform draws from the lower and from the upper half, four at a time. -/
instance : Distributions ℚ ℕ where
  uniform n := (if n % 8 < 4 then 1 / 4 else 3 / 4, n + 1)
  normal n := (0, n)
  uniformInt _ n := (0, n)

/-- A market in which nothing is cancelled and every add crosses the spread. -/
def crossedMarket : MarketProfile ℚ :=
  { OrderGenerator.stillMarket with cancelRatio := 0, aggressiveRatio := 1 }

/-- One for the warm-up and two to be measured, of which the first trades. -/
def crossedEvents : List InputEvent :=
  [.addOrder ⟨1, .buy, 1, 3, .gtc⟩, .addOrder ⟨2, .sell, 1, 1, .gtc⟩, .addOrder ⟨3, .buy, 1, 3, .gtc⟩]

theorem fits_crossedMarket : crossedMarket.Fits :=
  ⟨by decide +kernel, by decide +kernel, by decide +kernel, by decide +kernel, by decide +kernel,
    by decide +kernel, by decide +kernel⟩

def firstReservoir : Reservoir Unit := ⟨10, fun _ rng => (0, rng)⟩

/-- The threads in turn. -/
def turns : List (AgentSystem.Mover BenchmarkMover) :=
  (List.replicate 24 [.main, .loop .producer, .loop .matcher, .loop .stats]).flatten

end MatchingEngine
