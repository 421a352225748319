import MatchingEngine.Runtime.RingQueue

/-!
# The rings implement the queues

A pipeline over rings does what a pipeline over bounded queues does, one event less than there are slots
in each: a step of an agent within a call changes nothing that the queues or the other agents show, and
the step that a call returns with is the agent's step on the queue. So every interleaving over rings is
one over queues that writes the same, and the other way round, and what is proved of the queues holds of
the rings.
-/

namespace MatchingEngine

open SpscQueue (Holds)

/-- The event of the reader's call of `try_push`. -/
def Reader.attempt? : Reader → Option InputEvent
  | .pushing loop _ => loop.attempt?
  | _ => none

def Matcher.attempt? : Matcher → Option OutputEvent
  | .pushing loop _ _ => loop.attempt?
  | _ => none

@[simp] theorem Reader.attempt?_resumeReader (lines : Option (List Bytes)) :
    (Pipeline.resumeReader lines).attempt? = none := by
  cases lines <;> rfl

@[simp] theorem Matcher.attempt?_resumeMatcher (exits : Bool) (rest : List OutputEvent) :
    (Pipeline.resumeMatcher exits rest).attempt? = none := by
  cases rest with
  | nil => cases exits <;> rfl
  | cons => rfl

/-- A ring of so many slots has room for one event less. -/
def RingCapacities.queues (capacities : RingCapacities) : Capacities :=
  ⟨capacities.order.value - 1, capacities.output.value - 1⟩

namespace RingPipeline

variable {capacities : RingCapacities} {s : RingPipeline} {orderQueue : List InputEvent}
  {outputQueue : List OutputEvent}

/-- The pipeline with queues in place of its rings. -/
def onQueues (s : RingPipeline) (orderQueue : List InputEvent) (outputQueue : List OutputEvent) :
    Pipeline where
  reader := s.reader
  matcher := s.matcher
  writer := s.writer
  book := s.book
  orderQueue := orderQueue
  outputQueue := outputQueue
  stop := s.stop

/-- The rings hold these queues, and the agents are in the calls that their states say. -/
structure Implements (capacities : RingCapacities) (s : RingPipeline) (orderQueue : List InputEvent)
    (outputQueue : List OutputEvent) : Prop where
  orders : s.orderRing.Holds capacities.order orderQueue s.reader.attempt? (s.matcher = .popping)
  outputs : s.outputRing.Holds capacities.output outputQueue s.matcher.attempt? (s.writer = .popping)

theorem implements_initial (capacities : RingCapacities) (input : Bytes) :
    Implements capacities (initial input) [] [] where
  orders := SpscQueue.holds_initial ..
  outputs := SpscQueue.holds_initial ..

/-- The steps that an agent's calls have still to make. -/
def callsLeft (s : RingPipeline) : Mover → Nat
  | .reader => s.orderRing.push.stepsLeft
  | .matcher => s.orderRing.pop.stepsLeft + s.outputRing.push.stepsLeft
  | .writer => s.outputRing.pop.stepsLeft
  | .requestStop => 0

theorem callsLeft_le (s : RingPipeline) (mover : Mover) : s.callsLeft mover ≤ 8 := by
  cases mover with
  | reader => exact s.orderRing.push.stepsLeft_le.trans (by decide)
  | matcher => exact Nat.add_le_add s.orderRing.pop.stepsLeft_le s.outputRing.push.stepsLeft_le
  | writer => exact s.outputRing.pop.stepsLeft_le.trans (by decide)
  | requestStop => exact Nat.zero_le _

/-! ### What a step leaves alone -/

theorem readerStep_frame (capacities : RingCapacities) (s : RingPipeline) :
    ∃ reader orderRing, (s.readerStep capacities).1 = { s with reader, orderRing } ∧
      orderRing.pop = s.orderRing.pop := by
  rw [readerStep]
  split
  · exact ⟨_, _, rfl, rfl⟩
  · split <;> exact ⟨_, _, rfl, rfl⟩
  · next loop lines _ =>
    have hpop := loop.ringStep_pop s.stop capacities.order s.orderRing
    split <;>
    · next hring =>
      rw [hring] at hpop
      exact ⟨_, _, rfl, hpop⟩
  · exact ⟨_, _, rfl, rfl⟩

theorem handle_frame (s : RingPipeline) (event : InputEvent) :
    ∃ matcher book, s.handle event = { s with matcher, book } := by
  cases event with
  | shutdown => exact ⟨_, _, rfl⟩
  | addOrder _ | cancelOrder _ =>
    simp only [handle]
    split <;> exact ⟨_, _, rfl⟩

theorem matcherStep_frame (capacities : RingCapacities) (s : RingPipeline) :
    ∃ matcher book orderRing outputRing,
      (s.matcherStep capacities).1 = { s with matcher, book, orderRing, outputRing } ∧
        orderRing.push = s.orderRing.push ∧ outputRing.pop = s.outputRing.pop := by
  rw [matcherStep]
  split
  · exact ⟨_, _, _, _, rfl, rfl, rfl⟩
  · have hpush := s.orderRing.popStep_push capacities.order
    split
    · next orderRing event hring =>
      rw [hring] at hpush
      obtain ⟨matcher, book, hhandle⟩ := handle_frame { s with orderRing } event
      exact ⟨matcher, book, orderRing, s.outputRing, hhandle, hpush, rfl⟩
    · next hring =>
      rw [hring] at hpush
      exact ⟨_, _, _, _, rfl, hpush, rfl⟩
    · next hring =>
      rw [hring] at hpush
      exact ⟨_, _, _, _, rfl, hpush, rfl⟩
  · next loop rest exits _ =>
    have hpop := loop.ringStep_pop s.stop capacities.output s.outputRing
    split <;>
    · next hring =>
      rw [hring] at hpop
      exact ⟨_, _, _, _, rfl, rfl, hpop⟩
  · exact ⟨_, _, _, _, rfl, rfl, rfl⟩
  · exact ⟨_, _, _, _, rfl, rfl, rfl⟩

theorem writerStep_frame (capacities : RingCapacities) (s : RingPipeline) :
    ∃ writer outputRing, (s.writerStep capacities).1 = { s with writer, outputRing } ∧
      outputRing.push = s.outputRing.push := by
  rw [writerStep]
  split
  · exact ⟨_, _, rfl, rfl⟩
  · have hpush := s.outputRing.popStep_push capacities.output
    split <;>
    · next hring =>
      rw [hring] at hpush
      exact ⟨_, _, rfl, hpush⟩
  · exact ⟨_, _, rfl, rfl⟩
  · exact ⟨_, _, rfl, rfl⟩

/-- An agent's calls go on by its own steps only. -/
theorem callsLeft_step_of_ne (capacities : RingCapacities) (s : RingPipeline) {mover other : Mover}
    (h : other ≠ mover) : (s.step capacities mover).1.callsLeft other = s.callsLeft other := by
  cases mover with
  | reader =>
    obtain ⟨reader, orderRing, hframe, hpop⟩ := readerStep_frame capacities s
    cases other with
    | reader => exact absurd rfl h
    | _ => simp only [callsLeft, step, hframe, hpop]
  | matcher =>
    obtain ⟨matcher, book, orderRing, outputRing, hframe, hpush, hpop⟩ := matcherStep_frame capacities s
    cases other with
    | matcher => exact absurd rfl h
    | _ => simp only [callsLeft, step, hframe, hpush, hpop]
  | writer =>
    obtain ⟨writer, outputRing, hframe, hpush⟩ := writerStep_frame capacities s
    cases other with
    | writer => exact absurd rfl h
    | _ => simp only [callsLeft, step, hframe, hpush]
  | requestStop => cases other <;> rfl

/-- An agent that has returned from its loop stays where it is. -/
theorem returned_step (capacities : RingCapacities) (s : RingPipeline) (agent mover : Mover)
    (h : s.returned agent = true) : (s.step capacities mover).1.returned agent = true := by
  cases mover with
  | reader =>
    obtain ⟨reader, orderRing, hframe, -⟩ := readerStep_frame capacities s
    cases agent with
    | reader =>
      have hreader : s.reader = .done := of_decide_eq_true h
      simp only [step, readerStep, hreader, returned, decide_true]
    | _ =>
      rw [step, hframe]
      exact h
  | matcher =>
    obtain ⟨matcher, book, orderRing, outputRing, hframe, -⟩ := matcherStep_frame capacities s
    cases agent with
    | matcher =>
      have hmatcher : s.matcher = .done := of_decide_eq_true h
      simp only [step, matcherStep, hmatcher, returned, decide_true]
    | _ =>
      rw [step, hframe]
      exact h
  | writer =>
    obtain ⟨writer, outputRing, hframe, -⟩ := writerStep_frame capacities s
    cases agent with
    | writer =>
      rcases of_decide_eq_true h with hwriter | hwriter
      · simp only [step, writerStep, hwriter, returned, true_or, decide_true]
      · simp only [step, writerStep, hwriter, returned, or_true, decide_true]
    | _ =>
      rw [step, hframe]
      exact h
  | requestStop =>
    cases agent <;> exact h

/-- A step within a call. -/
structure Stutters (capacities : RingCapacities) (s : RingPipeline) (orderQueue : List InputEvent)
    (outputQueue : List OutputEvent) (mover : Mover) (r : RingPipeline × List StreamWrite) : Prop where
  same : r.1.onQueues orderQueue outputQueue = s.onQueues orderQueue outputQueue
  silent : r.2 = []
  implements : Implements capacities r.1 orderQueue outputQueue
  calls_lt : r.1.callsLeft mover < s.callsLeft mover

/-- A step that is one on the queues. -/
def Steps (capacities : RingCapacities) (r : RingPipeline × List StreamWrite)
    (p : Pipeline × List StreamWrite) : Prop :=
  ∃ orderQueue outputQueue, p = (r.1.onQueues orderQueue outputQueue, r.2) ∧
    Implements capacities r.1 orderQueue outputQueue

namespace Implements

theorem readerStep (h : Implements capacities s orderQueue outputQueue) :
    Stutters capacities s orderQueue outputQueue .reader (s.readerStep capacities) ∨
      Steps capacities (s.readerStep capacities)
        ((s.onQueues orderQueue outputQueue).readerStep capacities.queues) := by
  have horders := h.orders
  cases hreader : s.reader with
  | reading lines =>
    rw [hreader] at horders
    cases lines with
    | nil =>
      simp only [RingPipeline.readerStep, Pipeline.readerStep, onQueues, hreader]
      exact Or.inr ⟨orderQueue, outputQueue, rfl, ⟨horders, h.outputs⟩⟩
    | cons line lines =>
      simp only [RingPipeline.readerStep, Pipeline.readerStep, onQueues, hreader]
      refine Or.inr ⟨orderQueue, outputQueue, ?_, ?_⟩
      · cases parseLine line <;> rfl
      · cases parseLine line <;> exact ⟨horders, h.outputs⟩
  | pushing loop lines =>
    rw [hreader] at horders
    simp only [RingPipeline.readerStep, Pipeline.readerStep, onQueues, hreader]
    rcases loop.ringStep_spec horders s.stop with
      ⟨ring', hring, hlt, horders'⟩ | ⟨loop', ring', queue', hring, hqueue, horders'⟩
    · rw [hring]
      refine Or.inl ⟨?_, rfl, ⟨horders', h.outputs⟩, hlt⟩
      simp only [onQueues, hreader]
    · rw [hring]
      refine Or.inr ⟨queue', outputQueue, ?_, ?_⟩
      · simp only [RingCapacities.queues, hqueue]
        cases loop' <;> rfl
      · cases loop' with
        | some loop' => exact ⟨horders', h.outputs⟩
        | none => exact ⟨by simpa using horders', h.outputs⟩
  | done =>
    simp only [RingPipeline.readerStep, Pipeline.readerStep, onQueues, hreader]
    refine Or.inr ⟨orderQueue, outputQueue, ?_, h⟩
    simp only [onQueues, hreader]

/-- Handling an event is the same over rings; it begins no call. -/
theorem handle (event : InputEvent)
    (horders : s.orderRing.Holds capacities.order orderQueue s.reader.attempt? False)
    (houtputs : s.outputRing.Holds capacities.output outputQueue none (s.writer = .popping)) :
    (s.onQueues orderQueue outputQueue).handle event
        = (s.handle event).onQueues orderQueue outputQueue ∧
      Implements capacities (s.handle event) orderQueue outputQueue := by
  have hcalls : ∀ (matcher : Matcher) (book : Clob), matcher.attempt? = none →
      Implements capacities { s with matcher, book } orderQueue outputQueue := by
    intro matcher book hnone
    refine ⟨horders.mono (Or.inr rfl) False.elim, ?_⟩
    simpa only [hnone] using houtputs
  cases event with
  | shutdown => exact ⟨rfl, hcalls _ _ (Matcher.attempt?_resumeMatcher ..)⟩
  | addOrder add =>
    cases hinput : s.book.onInput .int64 (.addOrder add) with
    | ok r =>
      simp only [RingPipeline.handle, Pipeline.handle, onQueues, hinput, true_and]
      exact hcalls _ _ (Matcher.attempt?_resumeMatcher ..)
    | error fault =>
      simp only [RingPipeline.handle, Pipeline.handle, onQueues, hinput, true_and]
      exact hcalls _ _ rfl
  | cancelOrder cancel =>
    cases hinput : s.book.onInput .int64 (.cancelOrder cancel) with
    | ok r =>
      simp only [RingPipeline.handle, Pipeline.handle, onQueues, hinput, true_and]
      exact hcalls _ _ (Matcher.attempt?_resumeMatcher ..)
    | error fault =>
      simp only [RingPipeline.handle, Pipeline.handle, onQueues, hinput, true_and]
      exact hcalls _ _ rfl

theorem matcherStep (h : Implements capacities s orderQueue outputQueue) :
    Stutters capacities s orderQueue outputQueue .matcher (s.matcherStep capacities) ∨
      Steps capacities (s.matcherStep capacities)
        ((s.onQueues orderQueue outputQueue).matcherStep capacities.queues) := by
  have horders := h.orders
  have houtputs := h.outputs
  cases hmatcher : s.matcher with
  | testing =>
    simp only [RingPipeline.matcherStep, Pipeline.matcherStep, onQueues, hmatcher]
    rw [hmatcher] at horders houtputs
    refine Or.inr ⟨orderQueue, outputQueue, rfl, horders.mono (Or.inr rfl) nofun, ?_⟩
    cases s.stop <;> exact houtputs
  | popping =>
    simp only [RingPipeline.matcherStep, Pipeline.matcherStep, onQueues, hmatcher]
    rw [hmatcher] at horders houtputs
    rcases (horders.mono (Or.inr rfl) fun _ => trivial).popStep with
      ⟨ring', hring, hlt, horders'⟩ | ⟨ring', hring, rfl, horders'⟩ |
        ⟨ring', event, rest, hring, rfl, horders'⟩
    · rw [hring]
      refine Or.inl ⟨?_, rfl, ⟨horders'.mono (Or.inr rfl) fun _ => rfl, houtputs⟩,
        Nat.add_lt_add_right hlt _⟩
      simp only [onQueues, hmatcher]
    · rw [hring]
      exact Or.inr ⟨[], outputQueue, rfl, horders'.mono (Or.inr rfl) False.elim, houtputs⟩
    · rw [hring]
      obtain ⟨hsame, himplements⟩ :=
        handle (s := { s with matcher := .popping, orderRing := ring' }) event horders' houtputs
      exact Or.inr ⟨rest, outputQueue, congrArg (·, []) hsame, himplements⟩
  | pushing loop rest exits =>
    simp only [RingPipeline.matcherStep, Pipeline.matcherStep, onQueues, hmatcher]
    rw [hmatcher] at horders houtputs
    rcases loop.ringStep_spec houtputs s.stop with
      ⟨ring', hring, hlt, houtputs'⟩ | ⟨loop', ring', queue', hring, hqueue, houtputs'⟩
    · rw [hring]
      refine Or.inl ⟨?_, rfl, ⟨horders, houtputs'⟩, Nat.add_lt_add_left hlt _⟩
      simp only [onQueues, hmatcher]
    · rw [hring]
      refine Or.inr ⟨orderQueue, queue', ?_, ?_⟩
      · simp only [RingCapacities.queues, hqueue]
        cases loop' <;> rfl
      · cases loop' with
        | some loop' => exact ⟨horders.mono (Or.inr rfl) nofun, houtputs'⟩
        | none => exact ⟨horders.mono (Or.inr rfl) nofun, by simpa using houtputs'⟩
  | done =>
    simp only [RingPipeline.matcherStep, Pipeline.matcherStep, onQueues, hmatcher]
    refine Or.inr ⟨orderQueue, outputQueue, ?_, h⟩
    simp only [onQueues, hmatcher]
  | faulted fault =>
    simp only [RingPipeline.matcherStep, Pipeline.matcherStep, onQueues, hmatcher]
    refine Or.inr ⟨orderQueue, outputQueue, ?_, h⟩
    simp only [onQueues, hmatcher]

theorem writerStep (h : Implements capacities s orderQueue outputQueue) :
    Stutters capacities s orderQueue outputQueue .writer (s.writerStep capacities) ∨
      Steps capacities (s.writerStep capacities) (s.onQueues orderQueue outputQueue).writerStep := by
  have houtputs := h.outputs
  cases hwriter : s.writer with
  | testing =>
    simp only [RingPipeline.writerStep, Pipeline.writerStep, onQueues, hwriter]
    rw [hwriter] at houtputs
    exact Or.inr ⟨orderQueue, outputQueue, rfl, h.orders, houtputs.mono (Or.inr rfl) nofun⟩
  | popping =>
    simp only [RingPipeline.writerStep, Pipeline.writerStep, onQueues, hwriter]
    rw [hwriter] at houtputs
    rcases (houtputs.mono (Or.inr rfl) fun _ => trivial).popStep with
      ⟨ring', hring, hlt, houtputs'⟩ | ⟨ring', hring, rfl, houtputs'⟩ |
        ⟨ring', event, rest, hring, rfl, houtputs'⟩
    · rw [hring]
      refine Or.inl ⟨?_, rfl, ⟨h.orders, houtputs'.mono (Or.inr rfl) fun _ => rfl⟩, hlt⟩
      simp only [onQueues, hwriter]
    · rw [hring]
      exact Or.inr ⟨orderQueue, [], rfl, h.orders, houtputs'.mono (Or.inr rfl) False.elim⟩
    · rw [hring]
      refine Or.inr ⟨orderQueue, rest, ?_, ?_⟩
      · cases event <;> rfl
      · cases event <;> exact ⟨h.orders, houtputs'.mono (Or.inr rfl) False.elim⟩
  | stopped =>
    simp only [RingPipeline.writerStep, Pipeline.writerStep, onQueues, hwriter]
    refine Or.inr ⟨orderQueue, outputQueue, ?_, h⟩
    simp only [onQueues, hwriter]
  | finished =>
    simp only [RingPipeline.writerStep, Pipeline.writerStep, onQueues, hwriter]
    refine Or.inr ⟨orderQueue, outputQueue, ?_, h⟩
    simp only [onQueues, hwriter]

/-- **One step over rings.** -/
theorem step (h : Implements capacities s orderQueue outputQueue) (mover : Mover) :
    Stutters capacities s orderQueue outputQueue mover (s.step capacities mover) ∨
      Steps capacities (s.step capacities mover)
        ((s.onQueues orderQueue outputQueue).step capacities.queues mover) := by
  cases mover with
  | reader => exact h.readerStep
  | matcher => exact h.matcherStep
  | writer => exact h.writerStep
  | requestStop => exact Or.inr ⟨orderQueue, outputQueue, rfl, h.orders, h.outputs⟩

/-- An agent left to itself comes to the end of its call. -/
theorem exists_steps (h : Implements capacities s orderQueue outputQueue) (mover : Mover) :
    ∃ n, Steps capacities (Interleaving.run (RingPipeline.step capacities) s (List.replicate n mover))
      ((s.onQueues orderQueue outputQueue).step capacities.queues mover) := by
  induction hwork : s.callsLeft mover using Nat.strongRecOn generalizing s with
  | ind work ih =>
    subst hwork
    rcases h.step mover with hstutters | hsteps
    · obtain ⟨n, orderQueue', outputQueue', hsame, himplements⟩ :=
        ih _ hstutters.calls_lt hstutters.implements rfl
      rw [hstutters.same] at hsame
      refine ⟨n + 1, orderQueue', outputQueue', ?_, himplements⟩
      rw [hsame, List.replicate_succ, Interleaving.run_cons, hstutters.silent, List.nil_append]
    · refine ⟨1, ?_⟩
      rw [List.replicate_one, Interleaving.run_singleton]
      exact hsteps

end Implements

/-- The pipeline over rings and the one over queues that it stands for. -/
def StandsFor (capacities : RingCapacities) (s : RingPipeline) (p : Pipeline) : Prop :=
  ∃ orderQueue outputQueue, p = s.onQueues orderQueue outputQueue ∧
    Implements capacities s orderQueue outputQueue

theorem standsFor_initial (capacities : RingCapacities) (input : Bytes) :
    StandsFor capacities (initial input) (Pipeline.initial input) :=
  ⟨[], [], rfl, implements_initial capacities input⟩

/-- **The rings implement the queues.** Every interleaving over rings is one over queues, in which the
same agents move, the same is written, and the rings hold the queues at its end. -/
theorem run_standsFor (capacities : RingCapacities) (input : Bytes) (schedule : List Mover) :
    ∃ schedule', (∀ mover ∈ schedule', mover ∈ schedule) ∧
      StandsFor capacities (run capacities input schedule).1
        (Pipeline.run capacities.queues input schedule').1 ∧
      (Pipeline.run capacities.queues input schedule').2 = (run capacities input schedule).2 := by
  have hstep : ∀ s p mover, StandsFor capacities s p →
      ∃ movers, (∀ mover' ∈ movers, mover = mover') ∧
        StandsFor capacities (step capacities s mover).1
          (Interleaving.run (Pipeline.step capacities.queues) p movers).1 ∧
        (Interleaving.run (Pipeline.step capacities.queues) p movers).2
          = (step capacities s mover).2 := by
    rintro s p mover ⟨orderQueue, outputQueue, rfl, h⟩
    rcases h.step mover with hstutters | ⟨orderQueue', outputQueue', hsame, himplements⟩
    · exact ⟨[], by simp, ⟨orderQueue, outputQueue, hstutters.same.symm, hstutters.implements⟩,
        hstutters.silent.symm⟩
    · refine ⟨[mover], by simp, ?_⟩
      rw [Interleaving.run_singleton, hsame]
      exact ⟨⟨orderQueue', outputQueue', rfl, himplements⟩, rfl⟩
  obtain ⟨schedule', hanswers, hrelated, hsame⟩ :=
    Interleaving.run_simulation hstep (standsFor_initial capacities input) schedule
  exact ⟨schedule', fun mover hmover => by simpa using hanswers mover hmover, hrelated, hsame⟩

/-- Every interleaving over queues is one over rings. -/
theorem exists_run_standsFor (capacities : RingCapacities) {s : RingPipeline} {p : Pipeline}
    (h : StandsFor capacities s p) (schedule : List Mover) :
    ∃ schedule', (∀ mover ∈ schedule', mover ∈ schedule) ∧
      StandsFor capacities (Interleaving.run (step capacities) s schedule').1
        (Interleaving.run (Pipeline.step capacities.queues) p schedule).1 ∧
      (Interleaving.run (step capacities) s schedule').2
        = (Interleaving.run (Pipeline.step capacities.queues) p schedule).2 := by
  have hstep : ∀ p s mover, StandsFor capacities s p →
      ∃ movers, (∀ mover' ∈ movers, mover = mover') ∧
        StandsFor capacities (Interleaving.run (step capacities) s movers).1
          (Pipeline.step capacities.queues p mover).1 ∧
        (Interleaving.run (step capacities) s movers).2 = (Pipeline.step capacities.queues p mover).2 := by
    rintro p s mover ⟨orderQueue, outputQueue, rfl, h⟩
    obtain ⟨n, orderQueue', outputQueue', hsame, himplements⟩ := h.exists_steps mover
    rw [hsame]
    exact ⟨List.replicate n mover, fun _ hmember => (List.eq_of_mem_replicate hmember).symm,
      ⟨orderQueue', outputQueue', rfl, himplements⟩, rfl⟩
  obtain ⟨schedule', hanswers, hrelated, hsame⟩ := Interleaving.run_simulation hstep h schedule
  exact ⟨schedule', fun mover hmover => by simpa using hanswers mover hmover, hrelated, hsame⟩

/-- The pipeline over queues that hold what the rings hold. -/
def queues (capacities : RingCapacities) (s : RingPipeline) : Pipeline :=
  s.onQueues (s.orderRing.contents capacities.order) (s.outputRing.contents capacities.output)

theorem StandsFor.eq_queues {s : RingPipeline} {p : Pipeline} (h : StandsFor capacities s p) :
    p = s.queues capacities := by
  obtain ⟨orderQueue, outputQueue, rfl, himplements⟩ := h
  rw [queues, ← himplements.orders.contents_eq, ← himplements.outputs.contents_eq]

/-- **What rings do, queues do, and the other way round**: read off from tail to head, the rings get to
what the queues get to, with the same writes. -/
theorem rings_implement_queues (capacities : RingCapacities) (input : Bytes) (p : Pipeline)
    (writes : List StreamWrite) :
    (∃ schedule, ((run capacities input schedule).1.queues capacities, (run capacities input schedule).2)
      = (p, writes)) ↔
    ∃ schedule, Pipeline.run capacities.queues input schedule = (p, writes) := by
  constructor
  · rintro ⟨schedule, hrun⟩
    obtain ⟨schedule', -, hstands, hsame⟩ := run_standsFor capacities input schedule
    exact ⟨schedule', by rw [← hrun, ← hstands.eq_queues, ← hsame]⟩
  · rintro ⟨schedule, hrun⟩
    obtain ⟨schedule', -, hstands, hsame⟩ :=
      exists_run_standsFor capacities (standsFor_initial capacities input) schedule
    change StandsFor capacities (run capacities input schedule').1
      (Pipeline.run capacities.queues input schedule).1 at hstands
    refine ⟨schedule', ?_⟩
    rw [← hstands.eq_queues, hrun]
    exact congrArg (p, ·) (hsame.trans (congrArg Prod.snd hrun))

end RingPipeline

end MatchingEngine
