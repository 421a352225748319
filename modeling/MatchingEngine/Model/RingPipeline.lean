import MatchingEngine.Model.SpscQueue
import MatchingEngine.Model.StreamPipeline

/-!
# The stream pipeline over its rings

`stream_pipeline.hpp` with the two `spsc_queue_t` it runs over. A call of `try_push` or `try_pop` takes
the steps that it takes in `SpscQueue`, and between any two of them the other agents can move. Everything
else is as it is in `StreamPipeline`.
-/

namespace MatchingEngine

/-- `input_event_t{}`, which the slots of the order queue hold at first. -/
def blankInput : InputEvent := .addOrder ⟨0, .buy, 0, 0, .gtc⟩

/-- `output_event_t{}`. -/
def blankOutput : OutputEvent := .trade ⟨0, 0, 0⟩

structure RingCapacities where
  order : Capacity
  output : Capacity

/-- The loop around `try_push`, on a ring. -/
def PushLoop.ringStep {α : Type} (stop : Bool) (capacity : Capacity) (ring : SpscQueue α) :
    PushLoop α → Option (PushLoop α) × SpscQueue α
  | .test event => (if stop then none else some (.attempt event), ring)
  | .attempt event =>
    match ring.pushStep capacity event with
    | (ring, [.pushed _]) => (none, ring)
    | (ring, [.pushFailed]) => (some (.test event), ring)
    | (ring, _) => (some (.attempt event), ring)

structure RingPipeline where
  reader : Reader
  matcher : Matcher := .testing
  writer : Writer := .testing
  book : Clob := {}
  orderRing : SpscQueue InputEvent := .initial blankInput
  outputRing : SpscQueue OutputEvent := .initial blankOutput
  stop : Bool := false

namespace RingPipeline

open Pipeline (resumeReader resumeMatcher)

def initial (input : Bytes) : RingPipeline := { reader := .reading (getlines input) }

def readerStep (capacities : RingCapacities) (s : RingPipeline) : RingPipeline × List StreamWrite :=
  match s.reader with
  | .reading [] => ({ s with reader := .pushing (.test .shutdown) none }, [])
  | .reading (line :: lines) =>
    match parseLine line with
    | .ok event => ({ s with reader := .pushing (.test event) (some lines) }, [])
    | .skipped => ({ s with reader := .reading lines }, [])
    | .error diagnostic => ({ s with reader := .reading lines }, [.err diagnostic])
  | .pushing loop lines =>
    match loop.ringStep s.stop capacities.order s.orderRing with
    | (some loop, orderRing) => ({ s with reader := .pushing loop lines, orderRing }, [])
    | (none, orderRing) => ({ s with reader := resumeReader lines, orderRing }, [])
  | .done => (s, [])

/-- `matcher_handler_t` on an event that has been popped. -/
def handle (s : RingPipeline) : InputEvent → RingPipeline
  | .shutdown => { s with matcher := resumeMatcher true [.shutdown] }
  | event =>
    match s.book.onInput .int64 event with
    | .ok (book, emitted) => { s with book, matcher := resumeMatcher false emitted }
    | .error fault => { s with matcher := .faulted fault }

def matcherStep (capacities : RingCapacities) (s : RingPipeline) : RingPipeline × List StreamWrite :=
  match s.matcher with
  | .testing => ({ s with matcher := if s.stop then .done else .popping }, [])
  | .popping =>
    match s.orderRing.popStep capacities.order with
    | (orderRing, [.popped event]) => (handle { s with orderRing } event, [])
    | (orderRing, [.popFailed]) => ({ s with matcher := .testing, orderRing }, [])
    | (orderRing, _) => ({ s with orderRing }, [])
  | .pushing loop rest exits =>
    match loop.ringStep s.stop capacities.output s.outputRing with
    | (some loop, outputRing) => ({ s with matcher := .pushing loop rest exits, outputRing }, [])
    | (none, outputRing) => ({ s with matcher := resumeMatcher exits rest, outputRing }, [])
  | .done => (s, [])
  | .faulted _ => (s, [])

def writerStep (capacities : RingCapacities) (s : RingPipeline) : RingPipeline × List StreamWrite :=
  match s.writer with
  | .testing => ({ s with writer := if s.stop then .stopped else .popping }, [])
  | .popping =>
    match s.outputRing.popStep capacities.output with
    | (outputRing, [.popped .shutdown]) => ({ s with writer := .finished, outputRing }, [])
    | (outputRing, [.popped event]) =>
      ({ s with writer := .testing, outputRing }, [.out (format event)])
    | (outputRing, [.popFailed]) => ({ s with writer := .testing, outputRing }, [])
    | (outputRing, _) => ({ s with outputRing }, [])
  | .stopped => (s, [])
  | .finished => (s, [])

def step (capacities : RingCapacities) (s : RingPipeline) : Mover → RingPipeline × List StreamWrite
  | .reader => s.readerStep capacities
  | .matcher => s.matcherStep capacities
  | .writer => s.writerStep capacities
  | .requestStop => ({ s with stop := true }, [])

/-- The agent has returned from its loop. -/
def returned (s : RingPipeline) : Mover → Bool
  | .reader => s.reader = .done
  | .matcher => s.matcher = .done
  | .writer => s.writer = .stopped ∨ s.writer = .finished
  | .requestStop => true

/-- The pipeline after an interleaving, and what was written on the way. -/
def run (capacities : RingCapacities) (input : Bytes) (schedule : List Mover) :
    RingPipeline × List StreamWrite :=
  Interleaving.run (step capacities) (initial input) schedule

end RingPipeline

end MatchingEngine
