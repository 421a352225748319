import MatchingEngine.Benchmark.Harness
import MatchingEngine.Runtime.Termination

/-!
# Every fair schedule ends the benchmark

Nobody asks to stop an iteration, so it has to end by itself: the producer runs out of events, and the
shutdown that it pushes behind them takes the matcher and then the stats agent out of their loops. As in
the stream pipeline neither the test of a flag nor a failed attempt on a queue is progress, and an agent
that has what it is after in reach keeps it there until it moves. Then the agents are joined.
-/

namespace MatchingEngine

open Channel
open Interleaving (Approaches Fair Helped moves)

/-! ### What is outstanding -/

namespace ProducerLoop

/-- Two for each event, to push it and to test the flag behind it, and two for the shutdown. -/
def outstanding : ProducerLoop → Nat
  | .pushing _ (some events) => 2 * events.length + 3
  | .pushing _ none => 1
  | .testing events => 2 * events.length + 2
  | .done => 0

theorem outstanding_nextPush_lt (events : List InputEvent) :
    (Iteration.nextPush events).outstanding < outstanding (.testing events) := by
  cases events with
  | nil => exact Nat.lt_succ_self 1
  | cons event events =>
    simp only [Iteration.nextPush, outstanding, List.length_cons]
    omega

theorem outstanding_behindPush_lt (loop : PushLoop InputEvent) (events : Option (List InputEvent)) :
    (Iteration.behindPush events).outstanding < outstanding (.pushing loop events) := by
  cases events with
  | none => exact Nat.one_pos
  | some events => exact Nat.lt_succ_self _

end ProducerLoop

namespace TimedMatcher

variable {ρ : Type}

def running : TimedMatcher ρ → Nat
  | .done | .faulted _ => 0
  | _ => 1

/-- The event still to be pushed for the event at hand. -/
def outstanding : TimedMatcher ρ → Nat
  | .pushing _ _ => 1
  | _ => 0

end TimedMatcher

def StatsLoop.running : StatsLoop → Nat
  | .testing | .popping => 1
  | .stopped | .finished => 0

namespace Iteration

variable {ρ σ : Type} {s : Iteration ρ σ} {capacities : BenchmarkCapacities}

/-- What is left for the producer, for the matcher to take, for the matcher to push, and for the stats
agent. -/
def outstanding (s : Iteration ρ σ) : ℕ ×ₗ ℕ ×ₗ ℕ ×ₗ ℕ :=
  toLex (s.producer.outstanding, toLex (s.orderQueue.length + s.matcher.running,
    toLex (s.matcher.outstanding, s.statsQueue.length + s.stats.running)))

/-- What the agent is after is in reach. -/
def Helps (capacities : BenchmarkCapacities) (s : Iteration ρ σ) : BenchmarkMover → Prop
  | .producer =>
    match s.producer with
    | .pushing _ _ => s.orderQueue.length < capacities.order
    | .testing _ => True
    | .done => False
  | .matcher =>
    match s.matcher with
    | .testing | .popping => s.orderQueue ≠ []
    | .pushing _ _ => s.statsQueue.length < capacities.stats
    | .done | .faulted _ => False
  | .stats =>
    match s.stats with
    | .testing | .popping => s.statsQueue ≠ []
    | .stopped | .finished => False
  | .requestStop => False

/-- The moves that an agent makes until it brings down what is outstanding. -/
def pace (s : Iteration ρ σ) : BenchmarkMover → Nat
  | .producer =>
    match s.producer with
    | .pushing loop _ => loop.pace false
    | _ => 0
  | .matcher =>
    match s.matcher with
    | .testing => 2
    | .popping => 1
    | .pushing loop _ => loop.pace false
    | _ => 0
  | .stats =>
    match s.stats with
    | .testing => 2
    | .popping => 1
    | _ => 0
  | .requestStop => 0

theorem outstanding_lt_of_producer {producer : ProducerLoop} {orderQueue : List InputEvent}
    (h : producer.outstanding < s.producer.outstanding) :
    outstanding { s with producer, orderQueue } < s.outstanding :=
  Prod.Lex.toLex_lt_toLex.mpr (Or.inl h)

theorem outstanding_lt_of_orders {book : Clob} {tradeCounter : UInt64} {timed : Nat}
    {matcher : TimedMatcher ρ} {orderQueue : List InputEvent}
    (h : orderQueue.length + matcher.running < s.orderQueue.length + s.matcher.running) :
    outstanding { s with matcher, book, tradeCounter, timed, orderQueue } < s.outstanding := by
  simp only [outstanding, Prod.Lex.toLex_lt_toLex, true_and]
  exact Or.inr (Or.inl h)

theorem outstanding_lt_of_matcher {matcher : TimedMatcher ρ} {statsQueue : List (StatsEvent ρ)}
    (hrunning : matcher.running ≤ s.matcher.running) (h : matcher.outstanding < s.matcher.outstanding) :
    outstanding { s with matcher, statsQueue } < s.outstanding := by
  simp only [outstanding, Prod.Lex.toLex_lt_toLex, true_and]
  rcases Nat.lt_or_eq_of_le hrunning with hlt | heq
  · exact Or.inr (Or.inl (Nat.add_lt_add_left hlt _))
  · exact Or.inr (Or.inr ⟨congrArg (s.orderQueue.length + ·) heq, Or.inl h⟩)

theorem outstanding_lt_of_stats {stats : StatsLoop} {latency : LatencyAccumulator ρ σ}
    {statsQueue : List (StatsEvent ρ)}
    (h : statsQueue.length + stats.running < s.statsQueue.length + s.stats.running) :
    outstanding { s with stats, latency, statsQueue } < s.outstanding := by
  simp only [outstanding, Prod.Lex.toLex_lt_toLex, true_and]
  exact Or.inr (Or.inr (Or.inr h))

/-! ### What a move does -/

theorem approaches_producerStep (hstop : s.stop = false) :
    Approaches outstanding (Helps capacities) pace s (s.producerStep capacities) .producer := by
  cases hproducer : s.producer with
  | done =>
    rw [show s.producerStep capacities = s by simp only [producerStep, hproducer]]
    refine Or.inr ⟨rfl, fun _ _ => ⟨Iff.rfl, rfl⟩, fun hhelps => ?_⟩
    simp only [Helps, hproducer] at hhelps
  | testing events =>
    have hstep : s.producerStep capacities = { s with producer := nextPush events } := by
      simp only [producerStep, hproducer, hstop]
      rfl
    rw [hstep]
    apply Or.inl (outstanding_lt_of_producer _)
    rw [hproducer]
    exact ProducerLoop.outstanding_nextPush_lt events
  | pushing loop events =>
    cases hloop : loop.step s.stop capacities.order s.orderQueue with
    | mk next orderQueue =>
      cases next with
      | none =>
        have hstep : s.producerStep capacities = { s with producer := behindPush events, orderQueue } := by
          simp only [producerStep, hproducer, hloop]
        rw [hstep]
        apply Or.inl (outstanding_lt_of_producer _)
        rw [hproducer]
        exact ProducerLoop.outstanding_behindPush_lt loop events
      | some loop' =>
        obtain rfl := PushLoop.queue_eq_of_some hloop
        have hstep : s.producerStep capacities = { s with producer := .pushing loop' events } := by
          simp only [producerStep, hproducer, hloop]
        rw [hstep]
        refine Or.inr ⟨?_, ?_, ?_⟩
        · simp only [outstanding, hproducer]
          cases events <;> rfl
        · intro other hother
          cases other with
          | producer => exact absurd rfl hother
          | _ => exact ⟨Iff.rfl, rfl⟩
        · intro hreach
          simp only [Helps, hproducer] at hreach
          refine ⟨hreach, ?_⟩
          simp only [pace, hproducer]
          rw [hstop] at hloop
          exact PushLoop.pace_lt_of_some (Or.inr hreach) hloop

theorem approaches_matcherStep (hstop : s.stop = false) (hfault : ∀ fault, s.matcher ≠ .faulted fault)
    (collectLatency : Bool) (elapsedNs : ℕ → ρ) :
    Approaches outstanding (Helps capacities) pace s (s.matcherStep capacities collectLatency elapsedNs).1
      .matcher := by
  have hothers : ∀ matcher other, other ≠ .matcher →
      (Helps capacities { s with matcher } other ↔ s.Helps capacities other) ∧
        pace { s with matcher } other = s.pace other := by
    intro matcher other hother
    cases other with
    | matcher => exact absurd rfl hother
    | _ => exact ⟨Iff.rfl, rfl⟩
  cases hmatcher : s.matcher with
  | faulted fault => exact absurd hmatcher (hfault fault)
  | done =>
    rw [show s.matcherStep capacities collectLatency elapsedNs = (s, []) by simp only [matcherStep, hmatcher]]
    refine Or.inr ⟨rfl, fun _ _ => ⟨Iff.rfl, rfl⟩, fun hhelps => ?_⟩
    simp only [Helps, hmatcher] at hhelps
  | testing =>
    have hstep : s.matcherStep capacities collectLatency elapsedNs
        = ({ s with matcher := .popping }, []) := by
      simp only [matcherStep, hmatcher, hstop]
      rfl
    rw [hstep]
    refine Or.inr ⟨?_, hothers _, ?_⟩
    · simp only [outstanding, hmatcher, TimedMatcher.running, TimedMatcher.outstanding]
    · intro hreach
      simp only [Helps, hmatcher] at hreach
      refine ⟨hreach, ?_⟩
      simp [pace, hmatcher]
  | popping =>
    cases hqueue : s.orderQueue with
    | nil =>
      have hstep : s.matcherStep capacities collectLatency elapsedNs
          = ({ s with matcher := .testing }, []) := by
        simp only [matcherStep, hmatcher, hqueue]
      rw [hstep]
      refine Or.inr ⟨?_, hothers _, ?_⟩
      · simp only [outstanding, hmatcher, TimedMatcher.running, TimedMatcher.outstanding]
      · intro hreach
        simp only [Helps, hmatcher] at hreach
        exact absurd hqueue hreach
    | cons event orderQueue =>
      have hstep : s.matcherStep capacities collectLatency elapsedNs
          = handle collectLatency elapsedNs { s with orderQueue } event := by
        simp only [matcherStep, hmatcher, hqueue]
      obtain ⟨matcher, book, tradeCounter, timed, hhandle⟩ :=
        handle_frame collectLatency elapsedNs { s with orderQueue } event
      have hrunning : matcher.running ≤ 1 := by
        cases matcher <;> simp [TimedMatcher.running]
      have hlt : orderQueue.length + matcher.running < s.orderQueue.length + s.matcher.running := by
        rw [hqueue, hmatcher, List.length_cons, show (@TimedMatcher.popping ρ).running = 1 from rfl]
        omega
      rw [hstep, hhandle]
      exact Or.inl (outstanding_lt_of_orders hlt)
  | pushing loop exits =>
    cases hloop : loop.step s.stop capacities.stats s.statsQueue with
    | mk next statsQueue =>
      cases next with
      | none =>
        have hstep : s.matcherStep capacities collectLatency elapsedNs
            = ({ s with matcher := if exits then .done else .testing, statsQueue }, []) := by
          simp only [matcherStep, hmatcher, hloop]
        rw [hstep]
        apply Or.inl (outstanding_lt_of_matcher _ _)
        · rw [hmatcher]
          cases exits <;> simp [TimedMatcher.running]
        · rw [hmatcher]
          cases exits <;> exact Nat.one_pos
      | some loop' =>
        obtain rfl := PushLoop.queue_eq_of_some hloop
        have hstep : s.matcherStep capacities collectLatency elapsedNs
            = ({ s with matcher := .pushing loop' exits }, []) := by
          simp only [matcherStep, hmatcher, hloop]
        rw [hstep]
        refine Or.inr ⟨?_, hothers _, ?_⟩
        · simp only [outstanding, hmatcher, TimedMatcher.running, TimedMatcher.outstanding]
        · intro hreach
          simp only [Helps, hmatcher] at hreach
          refine ⟨hreach, ?_⟩
          simp only [pace, hmatcher]
          rw [hstop] at hloop
          exact PushLoop.pace_lt_of_some (Or.inr hreach) hloop

section Stats

variable [Add ρ] [Sub ρ] [Mul ρ] [Div ρ] [NatCast ρ] [LT ρ] [DecidableLT ρ]

theorem approaches_statsStep (hstop : s.stop = false) (reservoir : Reservoir σ) :
    Approaches outstanding (Helps capacities) pace s (s.statsStep reservoir) .stats := by
  have hothers : ∀ stats other, other ≠ .stats →
      (Helps capacities { s with stats } other ↔ s.Helps capacities other) ∧
        pace { s with stats } other = s.pace other := by
    intro stats other hother
    cases other with
    | stats => exact absurd rfl hother
    | _ => exact ⟨Iff.rfl, rfl⟩
  cases hstats : s.stats with
  | stopped =>
    rw [show s.statsStep reservoir = s by simp only [statsStep, hstats]]
    refine Or.inr ⟨rfl, fun _ _ => ⟨Iff.rfl, rfl⟩, fun hhelps => ?_⟩
    simp only [Helps, hstats] at hhelps
  | finished =>
    rw [show s.statsStep reservoir = s by simp only [statsStep, hstats]]
    refine Or.inr ⟨rfl, fun _ _ => ⟨Iff.rfl, rfl⟩, fun hhelps => ?_⟩
    simp only [Helps, hstats] at hhelps
  | testing =>
    have hstep : s.statsStep reservoir = { s with stats := .popping } := by
      simp only [statsStep, hstats, hstop]
      rfl
    rw [hstep]
    refine Or.inr ⟨?_, hothers _, ?_⟩
    · simp only [outstanding, hstats, StatsLoop.running]
    · intro hreach
      simp only [Helps, hstats] at hreach
      refine ⟨hreach, ?_⟩
      simp [pace, hstats]
  | popping =>
    cases hqueue : s.statsQueue with
    | nil =>
      have hstep : s.statsStep reservoir = { s with stats := .testing } := by
        simp only [statsStep, hstats, hqueue]
      rw [hstep]
      refine Or.inr ⟨?_, hothers _, ?_⟩
      · simp only [outstanding, hstats, StatsLoop.running]
      · intro hreach
        simp only [Helps, hstats] at hreach
        exact absurd hqueue hreach
    | cons event statsQueue =>
      cases event with
      | shutdown =>
        have hstep : s.statsStep reservoir = { s with stats := .finished, statsQueue } := by
          simp only [statsStep, hstats, hqueue]
        rw [hstep]
        apply Or.inl (outstanding_lt_of_stats _)
        simp only [hqueue, hstats, List.length_cons, StatsLoop.running]
        omega
      | ping latencyNs =>
        have hstep : s.statsStep reservoir = { s with
            stats := .testing, latency := s.latency.add reservoir latencyNs, statsQueue } := by
          simp only [statsStep, hstats, hqueue]
        rw [hstep]
        apply Or.inl (outstanding_lt_of_stats _)
        simp only [hqueue, hstats, List.length_cons, StatsLoop.running]
        omega

end Stats

/-- The book is not called with a shutdown. -/
theorem shutdown_not_mem_matcherStep (s : Iteration ρ σ) (capacities : BenchmarkCapacities)
    (collectLatency : Bool) (elapsedNs : ℕ → ρ) :
    .shutdown ∉ (s.matcherStep capacities collectLatency elapsedNs).2 := by
  have hhandle : ∀ (s : Iteration ρ σ) event, .shutdown ∉ (handle collectLatency elapsedNs s event).2 := by
    intro s event
    cases event with
    | shutdown => exact List.not_mem_nil
    | _ =>
      simp only [handle]
      split <;> simp
  rw [matcherStep]
  split
  · exact List.not_mem_nil
  · split
    · exact List.not_mem_nil
    · exact hhandle _ _
  · split <;> exact List.not_mem_nil
  · exact List.not_mem_nil
  · exact List.not_mem_nil

end Iteration

/-! ### An iteration is live -/

section UnderWay

variable {ρ σ : Type} [Add ρ] [Sub ρ] [Mul ρ] [Div ρ] [NatCast ρ] [LT ρ] [DecidableLT ρ]

/-- What holds of an iteration that nobody asks to stop. -/
structure UnderWay (config : BenchmarkConfig) (reservoir : Reservoir σ) (elapsedNs : ℕ → ρ) (warm : Clob)
    (latency : LatencyAccumulator ρ σ) (measured : List InputEvent) (s : Iteration ρ σ) : Prop where
  measured : ∃ processed emitted samples,
    Measured config reservoir elapsedNs warm latency measured s processed emitted samples ∧
      .shutdown ∉ processed
  matcher : ∀ fault, s.matcher ≠ .faulted fault

namespace UnderWay

variable {capacities : BenchmarkCapacities} {config : BenchmarkConfig} {reservoir : Reservoir σ}
  {elapsedNs : ℕ → ρ} {warm : Clob} {latency : LatencyAccumulator ρ σ} {warmed measured : List InputEvent}
  {s : Iteration ρ σ}

theorem start (config : BenchmarkConfig) (reservoir : Reservoir σ) (elapsedNs : ℕ → ρ) (warm : Clob)
    (latency : LatencyAccumulator ρ σ) (measured : List InputEvent) :
    UnderWay config reservoir elapsedNs warm latency measured
      { producer := Iteration.nextPush measured, book := warm, latency } where
  measured := ⟨[], [], [], .start config reservoir elapsedNs warm latency measured, List.not_mem_nil⟩
  matcher := nofun

section Step

variable (h : UnderWay config reservoir elapsedNs warm latency measured s)

include h

theorem stop : s.stop = false := by
  obtain ⟨processed, emitted, samples, hmeasured, -⟩ := h.measured
  exact hmeasured.stop

theorem matcherStep_ne_faulted {warmEmitted : List OutputEvent}
    (hwarm : Clob.run .int64 {} warmed = .ok (warm, warmEmitted))
    (hfits : ∀ event ∈ warmed ++ measured, event.Fits .int64) (fault : Fault) :
    (s.matcherStep capacities config.collectLatency elapsedNs).1.matcher ≠ .faulted fault := by
  obtain ⟨processed, emitted, samples, hmeasured, -⟩ := h.measured
  cases hmatcher : s.matcher with
  | faulted fault => exact absurd hmatcher (h.matcher fault)
  | done =>
    simp only [Iteration.matcherStep, hmatcher]
    simp
  | testing =>
    simp only [Iteration.matcherStep, hmatcher]
    split <;> simp
  | popping =>
    cases hqueue : s.orderQueue with
    | nil =>
      simp only [Iteration.matcherStep, hmatcher, hqueue]
      simp
    | cons event orderQueue =>
      obtain ⟨⟨book, out⟩, hinput⟩ := hmeasured.onInput_ok hwarm hfits (by rw [hmatcher]; rfl) hqueue
      simp only [Iteration.matcherStep, hmatcher, hqueue]
      cases event with
      | shutdown => simp [Iteration.handle]
      | _ =>
        simp only [Iteration.handle, hinput, Iteration.behindBook]
        split <;> simp
  | pushing loop exits =>
    simp only [Iteration.matcherStep, hmatcher]
    split
    · simp
    · dsimp only
      split <;> simp

theorem step {warmEmitted : List OutputEvent}
    (hwarm : Clob.run .int64 {} warmed = .ok (warm, warmEmitted))
    (hfits : ∀ event ∈ warmed ++ measured, event.Fits .int64) {mover : BenchmarkMover}
    (hmover : mover ≠ .requestStop) :
    UnderWay config reservoir elapsedNs warm latency measured
      (s.step capacities config reservoir elapsedNs mover).1 := by
  obtain ⟨processed, emitted, samples, hmeasured, hnot⟩ := h.measured
  obtain ⟨emitted', samples', hmeasured'⟩ : ∃ emitted' samples', Measured config reservoir elapsedNs warm
      latency measured (s.step capacities config reservoir elapsedNs mover).1 _ emitted' samples' :=
    hmeasured.step hwarm hfits hmover
  refine ⟨⟨_, emitted', samples', hmeasured', ?_⟩, fun fault => ?_⟩
  · rw [List.mem_append, not_or]
    refine ⟨hnot, ?_⟩
    cases mover with
    | matcher => exact s.shutdown_not_mem_matcherStep _ _ _
    | _ => exact List.not_mem_nil
  · cases mover with
    | matcher => exact h.matcherStep_ne_faulted hwarm hfits fault
    | producer =>
      obtain ⟨producer, orderQueue, hframe⟩ := s.producerStep_frame capacities
      rw [Iteration.step, hframe]
      exact h.matcher fault
    | stats =>
      obtain ⟨stats, latency', statsQueue, hframe⟩ := s.statsStep_frame reservoir
      rw [Iteration.step, hframe]
      exact h.matcher fault
    | requestStop => exact h.matcher fault

/-- What is in the stats queue the stats agent has still to take. -/
theorem helps_stats (hqueue : s.statsQueue ≠ []) : s.Helps capacities .stats := by
  obtain ⟨processed, emitted, samples, hmeasured, -⟩ := h.measured
  have hpings := hmeasured.pings
  cases hstats : s.stats with
  | stopped => exact absurd hstats hmeasured.stats
  | testing =>
    simp only [Iteration.Helps, hstats]
    exact hqueue
  | popping =>
    simp only [Iteration.Helps, hstats]
    exact hqueue
  | finished =>
    -- nothing comes behind the shutdown
    have hended : StatsEvent.shutdown
        ∈ samples.map .ping ++ lastIf s.stats.ended .shutdown := by
      simp [hstats, lastIf, StatsLoop.ended]
    have hexiting : s.matcher.exiting = true := by
      by_contra hfalse
      have hmem := List.mem_append_left (s.statsQueue ++ s.matcher.pending) hended
      rw [← List.append_assoc, hpings, Bool.eq_false_of_not_eq_true hfalse] at hmem
      simp [lastIf] at hmem
    rw [hexiting, List.append_assoc] at hpings
    have hnil := eq_nil_of_mem_of_append_eq_concat hpings hended (by simp)
    exact absurd (List.append_eq_nil_iff.mp hnil).1 hqueue

/-- A matcher that waits for room waits for the stats agent. -/
theorem exists_helps_of_pushing (hstats : 0 < capacities.stats) {loop : PushLoop (StatsEvent ρ)}
    {exits : Bool} (hmatcher : s.matcher = .pushing loop exits) : ∃ mover, s.Helps capacities mover := by
  by_cases hroom : s.statsQueue.length < capacities.stats
  · refine ⟨.matcher, ?_⟩
    simp only [Iteration.Helps, hmatcher]
    exact hroom
  · refine ⟨.stats, h.helps_stats fun hnil => hroom ?_⟩
    rw [hnil]
    exact hstats

/-- What is in the order queue the matcher has still to take. -/
theorem exists_helps_of_orders (hstats : 0 < capacities.stats) (hnot : .shutdown ∉ measured)
    (hqueue : s.orderQueue ≠ []) :
    ∃ mover, s.Helps capacities mover := by
  obtain ⟨processed, emitted, samples, hmeasured, -⟩ := h.measured
  cases hmatcher : s.matcher with
  | pushing loop exits => exact h.exists_helps_of_pushing hstats hmatcher
  | faulted fault => exact absurd hmatcher (h.matcher fault)
  | testing =>
    refine ⟨.matcher, ?_⟩
    simp only [Iteration.Helps, hmatcher]
    exact hqueue
  | popping =>
    refine ⟨.matcher, ?_⟩
    simp only [Iteration.Helps, hmatcher]
    exact hqueue
  | done =>
    have horders := hmeasured.orders
    rw [hmatcher, List.append_assoc] at horders
    have hnil := eq_nil_of_mem_of_append_eq_concat horders (by simp [lastIf, TimedMatcher.exiting]) hnot
    exact absurd (List.append_eq_nil_iff.mp hnil).1 hqueue

/-- As long as not all have exited one of them has what it is after in reach. -/
theorem exists_helps (horder : 0 < capacities.order) (hstats : 0 < capacities.stats)
    (hnot : .shutdown ∉ measured) (hexited : ¬ ∀ agent ∈ Iteration.agents, s.returned agent = true) :
    ∃ mover, s.Helps capacities mover := by
  by_cases hqueue : s.orderQueue = []
  · obtain ⟨processed, emitted, samples, hmeasured, hprocessed⟩ := h.measured
    cases hproducer : s.producer with
    | testing events =>
      refine ⟨.producer, ?_⟩
      simp only [Iteration.Helps, hproducer]
    | pushing loop events =>
      refine ⟨.producer, ?_⟩
      simp only [Iteration.Helps, hproducer, hqueue]
      exact horder
    | done =>
      -- the matcher has taken the shutdown
      have hexiting : s.matcher.exiting = true := by
        by_contra hfalse
        have horders := hmeasured.orders
        rw [hqueue, hproducer, Bool.eq_false_of_not_eq_true hfalse] at horders
        simp only [lastIf, ProducerLoop.pending, Bool.false_eq_true, if_false, List.append_nil] at horders
        exact hprocessed (horders ▸ List.mem_append_right _ (List.mem_singleton_self _))
      cases hmatcher : s.matcher with
      | pushing loop exits => exact h.exists_helps_of_pushing hstats hmatcher
      | done =>
        refine ⟨.stats, h.helps_stats fun hnil => ?_⟩
        have hpings := hmeasured.pings
        rw [hexiting, hnil, hmatcher] at hpings
        have hlast : StatsEvent.shutdown
            ∈ ((List.range s.timed).map elapsedNs).map .ping ++ lastIf true .shutdown := by
          simp [lastIf]
        rw [← hpings] at hlast
        cases hloop : s.stats with
        | finished =>
          apply hexited
          simp [Iteration.agents, Iteration.returned, hproducer, hmatcher, hloop]
        | stopped => exact absurd hloop hmeasured.stats
        | testing =>
          rw [hloop] at hlast
          simp [lastIf, StatsLoop.ended, TimedMatcher.pending] at hlast
        | popping =>
          rw [hloop] at hlast
          simp [lastIf, StatsLoop.ended, TimedMatcher.pending] at hlast
      | testing =>
        rw [hmatcher] at hexiting
        cases hexiting
      | popping =>
        rw [hmatcher] at hexiting
        cases hexiting
      | faulted fault => exact absurd hmatcher (h.matcher fault)
  · exact h.exists_helps_of_orders hstats hnot hqueue

theorem approaches {mover : BenchmarkMover} (hmover : mover ≠ .requestStop) :
    Approaches Iteration.outstanding (Iteration.Helps capacities) Iteration.pace s
      (s.step capacities config reservoir elapsedNs mover).1 mover := by
  cases mover with
  | producer => exact Iteration.approaches_producerStep h.stop
  | matcher => exact Iteration.approaches_matcherStep h.stop h.matcher config.collectLatency elapsedNs
  | stats => exact Iteration.approaches_statsStep h.stop reservoir
  | requestStop => exact absurd rfl hmover

end Step

end UnderWay

section Iteration

variable {capacities : BenchmarkCapacities} (horder : 0 < capacities.order) (hstats : 0 < capacities.stats)
  {warm : Clob} {warmed measured : List InputEvent} {warmEmitted : List OutputEvent}
  (hwarm : Clob.run .int64 {} warmed = .ok (warm, warmEmitted))
  (hfits : ∀ event ∈ warmed ++ measured, event.Fits .int64) (hnot : .shutdown ∉ measured)

include horder hstats hwarm hfits hnot

theorem iteration_helped (config : BenchmarkConfig) (reservoir : Reservoir σ) (elapsedNs : ℕ → ρ)
    (latency : LatencyAccumulator ρ σ) :
    Helped (Iteration.step capacities config reservoir elapsedNs) (· ≠ .requestStop) (· ≠ .requestStop)
      (fun s => ∀ agent ∈ Iteration.agents, s.returned agent = true)
      (fun s a => s = a ∧ UnderWay config reservoir elapsedNs warm latency measured a) Iteration.outstanding
      (Iteration.Helps capacities) (fun _ => Iteration.pace) :=
  .of_approaches
    (fun h hexited => by
      obtain ⟨mover, hhelps⟩ := h.exists_helps horder hstats hnot hexited
      exact ⟨mover, fun heq => by rw [heq] at hhelps; exact hhelps, hhelps⟩)
    (fun h _ hmover => h.step hwarm hfits hmover) fun h _ hmover => h.approaches hmover

/-- **Every fair schedule ends an iteration**, whatever the timer reads: the agents return, and the thread
that joins them goes on. -/
theorem iteration_returns (config : BenchmarkConfig) (reservoir : Reservoir σ) (elapsedNs : ℕ → ρ)
    (latency : LatencyAccumulator ρ σ) {schedule : ℕ → AgentSystem.Mover BenchmarkMover}
    (hfair : Fair (AgentSystem.Mover.Among (· ≠ .requestStop)) schedule)
    (hstop : ∀ n, (schedule n).Among (· ≠ .requestStop)) :
    ∃ n, (Interleaving.run
      (AgentSystem.step Iteration.agents Iteration.returned
        (Iteration.step capacities config reservoir elapsedNs))
      (.initial Iteration.agents { producer := Iteration.nextPush measured, book := warm, latency })
      (moves schedule n)).1.main = .returned := by
  have hhelped := AgentSystem.helped (Iteration.returned_step capacities config reservoir elapsedNs)
    (iteration_helped horder hstats hwarm hfits hnot config reservoir elapsedNs latency) fun _ h => h
  exact hhelped.eventually
    (a := (.initial Iteration.agents { producer := Iteration.nextPush measured, book := warm, latency }, _))
    ⟨rfl, ⟨rfl, UnderWay.start config reservoir elapsedNs warm latency measured⟩, trivial⟩ hfair hstop

end Iteration

end UnderWay

/-! ### The loop around the iterations -/

section RunPreset

variable {ρ σ δ τ : Type} [Doubles ρ] [Distributions ρ σ]
  [Add δ] [Sub δ] [Mul δ] [Div δ] [NatCast δ] [LT δ] [DecidableLT δ]
  {profile : MarketProfile ρ} {capacities : BenchmarkCapacities} {config : BenchmarkConfig}
  {reservoir : Reservoir τ}

theorem yields_preGenerate (hprofile : profile.Fits) (hqty : profile.qtyMin ≤ profile.qtyMax)
    (hround : ∀ x : ρ, SignedInt.int64.Fits (Doubles.lround x))
    (hindex : ∀ n (rng : σ), (Distributions.uniformInt ρ n rng).1 ≤ n) {warmupEvents : UInt64}
    (hroom : warmupEvents.toNat + profile.numOrders.toNat ≤ maxEvents) :
    Sampling.Yields (preGenerate profile warmupEvents : Sampling σ (List InputEvent)) fun events =>
      events.length = (warmupEvents + profile.numOrders).toNat ∧
        ∀ event ∈ events, OrderGenerator.IsOrder event := by
  have hsum : (warmupEvents + profile.numOrders).toNat ≤ maxEvents := by
    rw [UInt64.toNat_add]
    exact (Nat.mod_le ..).trans hroom
  have hlength : (warmupEvents + profile.numOrders).toNat < 2 ^ 63 := by
    rw [maxEvents] at hsum
    omega
  rw [preGenerate]
  refine (Sampling.yields_lift (P := fun _ => True) (reserve_eq hsum) trivial).bind fun _ _ => ?_
  refine (OrderGenerator.yields_generate hprofile hqty hround hindex
    (show ([] : List InputEvent).length + _ < 2 ^ 63 by simpa using hlength)
    (OrderGenerator.streamed_create profile)).bind fun r hr => Sampling.yields_pure ?_
  obtain ⟨hstreamed, hcount⟩ := hr
  rw [List.length_nil, Nat.zero_add] at hcount
  refine ⟨hcount, fun event hevent => ⟨hstreamed.fits (hcount ▸ hlength) event hevent, ?_⟩⟩
  rintro rfl
  exact hstreamed.stream.not_shutdown hevent

theorem runIterations_congr {numOrders : UInt64} {events : List InputEvent} {elapsedNs : Nat → ℕ → δ}
    {schedules schedules' : Nat → List (AgentSystem.Mover BenchmarkMover)} {n : Nat}
    (h : ∀ i < n, schedules i = schedules' i) (agg : PresetResult δ τ) :
    runIterations capacities config reservoir numOrders events elapsedNs schedules n agg
      = runIterations capacities config reservoir numOrders events elapsedNs schedules' n agg := by
  induction n generalizing agg with
  | zero => rfl
  | succ n ih =>
    simp only [runIterations, h n (Nat.lt_succ_self n), ih fun i hi => h i (Nat.lt_succ_of_lt hi)]

theorem runIterations_returns (numOrders : UInt64) {events : List InputEvent} {elapsedNs : Nat → ℕ → δ}
    {schedule : Nat → ℕ → AgentSystem.Mover BenchmarkMover}
    (hreturns : ∀ latency i, ∃ n s processed, runIteration capacities config reservoir events latency
      (elapsedNs i) (moves (schedule i) n) = .ok (s, processed) ∧ s.main = .returned)
    (n : Nat) (agg : PresetResult δ τ) :
    ∃ (lengths : Nat → ℕ) (result : PresetResult δ τ),
      runIterations capacities config reservoir numOrders events elapsedNs
        (fun i => moves (schedule i) (lengths i)) n agg = some result := by
  induction n generalizing agg with
  | zero => exact ⟨fun _ => 0, agg, rfl⟩
  | succ n ih =>
    obtain ⟨length, s, processed, hiteration, hmain⟩ := hreturns agg.latency n
    obtain ⟨lengths, result, hresult⟩ := ih ⟨agg.totalOrders + numOrders,
      agg.totalTrades + s.loops.tradeCounter, s.loops.latency⟩
    refine ⟨Function.update lengths n length, result, ?_⟩
    simp only [runIterations, Function.update_self, hiteration, hmain, if_true]
    rw [← hresult]
    apply runIterations_congr
    intro i hi
    rw [Function.update_of_ne hi.ne]

section Generated

variable (horder : 0 < capacities.order) (hstats : 0 < capacities.stats) {events : List InputEvent}
  {rng rng' : σ} (hevents : preGenerate profile config.warmupEvents rng = some (events, rng'))
  (hcount : events.length = (config.warmupEvents + profile.numOrders).toNat)
  (hroom : config.warmupEvents.toNat ≤ events.length)
  (horders : ∀ event ∈ events, OrderGenerator.IsOrder event)

include horder hstats hevents hcount hroom horders

/-- Behind a stream that has been generated. -/
theorem runPreset_of_preGenerate (reservoir : Reservoir τ) (latency : LatencyAccumulator δ τ)
    (elapsedNs : Nat → ℕ → δ) {schedule : Nat → ℕ → AgentSystem.Mover BenchmarkMover}
    (hfair : ∀ i, Fair (AgentSystem.Mover.Among (· ≠ .requestStop)) (schedule i))
    (hstop : ∀ i n, (schedule i n).Among (· ≠ .requestStop)) :
    ∃ warm warmEmitted book emitted,
      Clob.run .int64 {} (events.take config.warmupEvents.toNat) = .ok (warm, warmEmitted) ∧
      warm.run .int64 (events.drop config.warmupEvents.toNat) = .ok (book, emitted) ∧
      ∃ (lengths : Nat → ℕ) (result : PresetResult δ τ),
        runPreset capacities config reservoir profile latency elapsedNs
          (fun i => moves (schedule i) (lengths i)) rng = some (result, rng') ∧
        result.totalOrders = config.iterations * profile.numOrders ∧
        result.totalTrades = config.iterations * UInt64.ofNat (trades emitted).length ∧
        result.latency.count = latency.count
          + config.iterations.toNat * (if config.collectLatency then profile.numOrders.toNat else 0) := by
  have hfits : ∀ event ∈ events, event.Fits .int64 := fun event hevent => (horders event hevent).1
  obtain ⟨warm, warmEmitted, levels, hwarm, hrepresents⟩ := run_represents (T := .int64)
    (events.take config.warmupEvents.toNat) fun event hevent => hfits event (List.mem_of_mem_take hevent)
  obtain ⟨book, emitted, levels', hrun, -⟩ := hrepresents.run (events.drop config.warmupEvents.toNat)
    fun event hevent => hfits event (List.mem_of_mem_drop hevent)
  refine ⟨warm, warmEmitted, book, emitted, hwarm, hrun, ?_⟩
  have hmeasured : ∀ event
      ∈ events.take config.warmupEvents.toNat ++ events.drop config.warmupEvents.toNat,
      event.Fits .int64 := by
    rwa [List.take_append_drop]
  have hnot : .shutdown ∉ events.drop config.warmupEvents.toNat := fun hmem =>
    (horders _ (List.mem_of_mem_drop hmem)).2 rfl
  have hnever : ∀ i n, .loop .requestStop ∉ moves (schedule i) n := by
    intro i n hmem
    obtain ⟨m, -, hm⟩ := List.mem_map.mp hmem
    exact (hm ▸ hstop i m : (AgentSystem.Mover.loop BenchmarkMover.requestStop).Among (· ≠ .requestStop)) rfl
  have hreturns : ∀ (latency : LatencyAccumulator δ τ) i, ∃ n s processed,
      runIteration capacities config reservoir events latency (elapsedNs i) (moves (schedule i) n)
        = .ok (s, processed) ∧ s.main = .returned := by
    intro latency i
    obtain ⟨n, hn⟩ := iteration_returns horder hstats hwarm hmeasured hnot config reservoir (elapsedNs i)
      latency (hfair i) (hstop i)
    exact ⟨n, _, _, (runIteration_eq_ok_iff hwarm).mpr ⟨hroom, rfl⟩, hn⟩
  obtain ⟨lengths, result, hresult⟩ :=
    runIterations_returns profile.numOrders hreturns config.iterations.toNat { latency }
  obtain ⟨htotal, htrades, hsamples⟩ := runIterations_totals
    (fun latency i s processed hiteration hmain => completed_runIteration hwarm hcount horders hrun
      (hnever i (lengths i)) hiteration (runIteration_joined hiteration hmain)) hresult
  refine ⟨lengths, result, ?_, ?_, ?_, hsamples⟩
  · rw [runPreset]
    change (preGenerate profile config.warmupEvents rng).bind _ = _
    rw [hevents, Option.bind_some]
    change StateT.lift (runIterations capacities config reservoir profile.numOrders events elapsedNs _
      config.iterations.toNat { latency }) rng' = _
    rw [hresult]
    rfl
  · rw [htotal, UInt64.ofNat_toNat, UInt64.zero_add]
  · rw [htrades, UInt64.ofNat_toNat, UInt64.zero_add]

end Generated

omit [Doubles ρ] in
/-- There is no wrapping round where there is room for the events. -/
theorem warmup_le_of_room {warmupEvents : UInt64} {events : List InputEvent}
    (hcount : events.length = (warmupEvents + profile.numOrders).toNat)
    (hroom : warmupEvents.toNat + profile.numOrders.toNat ≤ maxEvents) :
    warmupEvents.toNat ≤ events.length := by
  rw [hcount, UInt64.toNat_add, Nat.mod_eq_of_lt (by rw [maxEvents] at hroom; omega)]
  exact Nat.le_add_right ..

end RunPreset

/-- The threads in turn. -/
def inTurn (n : ℕ) : AgentSystem.Mover BenchmarkMover :=
  match n % 4 with
  | 0 => .main
  | 1 => .loop .producer
  | 2 => .loop .matcher
  | _ => .loop .stats

theorem fair_inTurn : Fair (AgentSystem.Mover.Among (· ≠ .requestStop)) inTurn := by
  rintro (_ | mover) hmover n
  · exact ⟨4 * n, by omega, by simp only [inTurn, show 4 * n % 4 = 0 by omega]⟩
  · cases mover with
    | producer => exact ⟨4 * n + 1, by omega, by simp only [inTurn, show (4 * n + 1) % 4 = 1 by omega]⟩
    | matcher => exact ⟨4 * n + 2, by omega, by simp only [inTurn, show (4 * n + 2) % 4 = 2 by omega]⟩
    | stats => exact ⟨4 * n + 3, by omega, by simp only [inTurn, show (4 * n + 3) % 4 = 3 by omega]⟩
    | requestStop => exact absurd rfl hmover

theorem among_inTurn (n : ℕ) : (inTurn n).Among (· ≠ .requestStop) := by
  rw [inTurn]
  split
  · trivial
  · exact BenchmarkMover.noConfusion
  · exact BenchmarkMover.noConfusion
  · exact BenchmarkMover.noConfusion

end MatchingEngine
