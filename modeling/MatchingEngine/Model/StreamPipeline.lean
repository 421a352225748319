import MatchingEngine.Lib.Interleaving
import MatchingEngine.Model.OrderBook
import MatchingEngine.Model.OutputFormatter

/-!
# The stream pipeline

`stream_pipeline.hpp` and the event loop it runs in: the reader, the matcher and the writer, each on a
thread of its own, with a bounded queue between one and the next and one stop flag for all. A test of
the flag and an attempt on a queue are steps of their own; whatever an agent does that no other agent
can see is part of the step before it. The book runs in 64 bits.
-/

namespace MatchingEngine

/-- The loop around `try_push`, in each of its four copies: the flag is tested before every attempt.
A loop that is left, with its event pushed or not, has no state. -/
inductive PushLoop (α : Type) where
  | test (event : α)
  | attempt (event : α)
  deriving DecidableEq

namespace PushLoop

variable {α : Type}

def event : PushLoop α → α
  | .test event => event
  | .attempt event => event

/-- One step of the loop on a queue of this capacity. -/
def step (stop : Bool) (capacity : Nat) (queue : List α) : PushLoop α → Option (PushLoop α) × List α
  | .test event => (if stop then none else some (.attempt event), queue)
  | .attempt event =>
    if queue.length < capacity then (none, queue ++ [event]) else (some (.test event), queue)

end PushLoop

/-- Where `reader_loop_t::run` stands, and the lines it has not read. The event being pushed comes
from `parse_stream`, or, with no lines to go back to, is the final shutdown. -/
inductive Reader where
  | reading (lines : List Bytes)
  | pushing (loop : PushLoop InputEvent) (lines : Option (List Bytes))
  | done
  deriving DecidableEq

/-- Where the matcher's `event_loop_t::run` stands. `rest` is what the book has still to emit for the
event at hand, and `exits` says that the event at hand was the shutdown. -/
inductive Matcher where
  | testing
  | popping
  | pushing (loop : PushLoop OutputEvent) (rest : List OutputEvent) (exits : Bool)
  | done
  | faulted (fault : Fault)
  deriving DecidableEq

/-- Where the writer's `event_loop_t::run` stands; it ends by the flag or by the shutdown. -/
inductive Writer where
  | testing
  | popping
  | stopped
  | finished
  deriving DecidableEq

structure Pipeline where
  reader : Reader
  matcher : Matcher := .testing
  writer : Writer := .testing
  book : Clob := {}
  orderQueue : List InputEvent := []
  outputQueue : List OutputEvent := []
  stop : Bool := false

/-- What an agent writes to a stream of the process. -/
inductive StreamWrite where
  | out (text : Bytes)
  | err (text : Bytes)
  deriving DecidableEq

/-- Who moves; `requestStop` sets the flag. -/
inductive Mover where
  | reader
  | matcher
  | writer
  | requestStop
  deriving DecidableEq

/-- The capacities of the two queues. -/
structure Capacities where
  order : Nat
  output : Nat

namespace Pipeline

/-- The pipeline in front of its input. -/
def initial (input : Bytes) : Pipeline := { reader := .reading (getlines input) }

/-- Behind a push the reader goes back to its lines, or ends. -/
def resumeReader : Option (List Bytes) → Reader
  | some lines => .reading lines
  | none => .done

def readerStep (capacities : Capacities) (s : Pipeline) : Pipeline × List StreamWrite :=
  match s.reader with
  | .reading [] => ({ s with reader := .pushing (.test .shutdown) none }, [])
  | .reading (line :: lines) =>
    match parseLine line with
    | .ok event => ({ s with reader := .pushing (.test event) (some lines) }, [])
    | .skipped => ({ s with reader := .reading lines }, [])
    | .error diagnostic => ({ s with reader := .reading lines }, [.err diagnostic])
  | .pushing loop lines =>
    match loop.step s.stop capacities.order s.orderQueue with
    | (some loop, orderQueue) => ({ s with reader := .pushing loop lines, orderQueue }, [])
    | (none, orderQueue) => ({ s with reader := resumeReader lines, orderQueue }, [])
  | .done => (s, [])

/-- Behind a push the matcher emits what is left, leaves the loop after the shutdown, or goes on. -/
def resumeMatcher (exits : Bool) : List OutputEvent → Matcher
  | event :: rest => .pushing (.test event) rest exits
  | [] => if exits then .done else .testing

/-- `matcher_handler_t` on an event that has been popped. -/
def handle (s : Pipeline) : InputEvent → Pipeline
  | .shutdown => { s with matcher := resumeMatcher true [.shutdown] }
  | event =>
    match s.book.onInput .int64 event with
    | .ok (book, emitted) => { s with book, matcher := resumeMatcher false emitted }
    | .error fault => { s with matcher := .faulted fault }

def matcherStep (capacities : Capacities) (s : Pipeline) : Pipeline × List StreamWrite :=
  match s.matcher with
  | .testing => ({ s with matcher := if s.stop then .done else .popping }, [])
  | .popping =>
    match s.orderQueue with
    | [] => ({ s with matcher := .testing }, [])
    | event :: orderQueue => (handle { s with orderQueue } event, [])
  | .pushing loop rest exits =>
    match loop.step s.stop capacities.output s.outputQueue with
    | (some loop, outputQueue) => ({ s with matcher := .pushing loop rest exits, outputQueue }, [])
    | (none, outputQueue) => ({ s with matcher := resumeMatcher exits rest, outputQueue }, [])
  | .done => (s, [])
  | .faulted _ => (s, [])

/-- The writer pops an event and, with `writer_handler_t`, writes it. -/
def writerStep (s : Pipeline) : Pipeline × List StreamWrite :=
  match s.writer with
  | .testing => ({ s with writer := if s.stop then .stopped else .popping }, [])
  | .popping =>
    match s.outputQueue with
    | [] => ({ s with writer := .testing }, [])
    | .shutdown :: outputQueue => ({ s with writer := .finished, outputQueue }, [])
    | event :: outputQueue => ({ s with writer := .testing, outputQueue }, [.out (format event)])
  | .stopped => (s, [])
  | .finished => (s, [])

def step (capacities : Capacities) (s : Pipeline) : Mover → Pipeline × List StreamWrite
  | .reader => s.readerStep capacities
  | .matcher => s.matcherStep capacities
  | .writer => s.writerStep
  | .requestStop => ({ s with stop := true }, [])

/-- The pipeline after an interleaving, and what was written on the way. -/
def run (capacities : Capacities) (input : Bytes) (schedule : List Mover) :
    Pipeline × List StreamWrite :=
  Interleaving.run (step capacities) (initial input) schedule

end Pipeline

end MatchingEngine
