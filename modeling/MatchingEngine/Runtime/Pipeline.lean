import MatchingEngine.Lib.Channel
import MatchingEngine.Book.Run
import MatchingEngine.Text.Grammar
import MatchingEngine.Model.StreamPipeline

/-!
# What the writer writes

Both queues are channels whose sender gives up when it sees the flag. What the matcher has taken is a
prefix of what the reader has to send, so the book has emitted a prefix of what it emits in a
sequential run; what the writer has handled is a prefix of that. The shutdown stands at the end of
both streams, so a writer that has handled it has handled all there was before it.
-/

namespace MatchingEngine

open Channel

/-! ### What the parser yields, and what the book emits -/

theorem fits_of_parseLine {line : Bytes} {e : InputEvent} (h : parseLine line = .ok e) :
    e.Fits .int64 ∧ e ≠ .shutdown := by
  obtain ⟨message, hmessage, -⟩ := parseLine_eq_ok_iff.mp h
  cases e with
  | addOrder event =>
    obtain ⟨_, _, _, -, hid, hqty, hprice⟩ := hmessage
    exact ⟨⟨hid.1, hqty.1, hprice.1⟩, InputEvent.noConfusion⟩
  | cancelOrder event =>
    obtain ⟨_, -, hid⟩ := hmessage
    exact ⟨hid.1, InputEvent.noConfusion⟩
  | shutdown => exact hmessage.elim

theorem fits_of_mem_parseLines {lines : List Bytes} :
    ∀ e ∈ (parseLines lines).1, e.Fits .int64 ∧ e ≠ .shutdown := by
  induction lines with
  | nil => simp [parseLines]
  | cons line lines ih =>
    intro e he
    rw [parseLines] at he
    cases hline : parseLine line with
    | ok event =>
      simp only [hline, List.mem_cons] at he
      rcases he with rfl | he
      · exact fits_of_parseLine hline
      · exact ih e he
    | skipped =>
      simp only [hline] at he
      exact ih e he
    | error diagnostic =>
      simp only [hline] at he
      exact ih e he

theorem PriorityBook.shutdown_not_mem_onInput (b : PriorityBook) (fillable : Bool)
    (event : InputEvent) : .shutdown ∉ (b.onInput fillable event).2 := by
  cases event with
  | shutdown => exact List.not_mem_nil
  | addOrder event =>
    apply onAddOrder_cases (P := fun _ emitted => .shutdown ∉ emitted)
    · intro _ _
      simp
    intro _
    apply addOrder_cases (P := fun _ emitted => .shutdown ∉ emitted)
    · intro _ _
      simp
    all_goals
      intros
      simp
  | cancelOrder event =>
    apply onCancelOrder_cases (P := fun _ emitted => .shutdown ∉ emitted)
    · intro _
      simp
    · intro _ _ _
      simp

theorem shutdown_not_mem_run {events : List InputEvent} (hfits : ∀ e ∈ events, e.Fits .int64)
    {c : Clob} {emitted : List OutputEvent} (hrun : Clob.run .int64 {} events = .ok (c, emitted)) :
    .shutdown ∉ emitted := by
  obtain ⟨c', emitted', -, hrun', -, hnot⟩ := run_induction
    (P := fun _ emitted _ _ => OutputEvent.shutdown ∉ emitted) List.not_mem_nil
    (fun _ hnot _ _ hmem => (List.mem_append.mp hmem).elim hnot
      (PriorityBook.shutdown_not_mem_onInput _ _ _)) events hfits
  obtain ⟨rfl, rfl⟩ := ok_unique hrun hrun'
  exact hnot

/-- The first part of a run emits the first part of what the run emits. -/
theorem Clob.run_isPrefix {T : SignedInt} {c c₁ c₂ : Clob} {events more : List InputEvent}
    {emitted all : List OutputEvent} (hfirst : c.run T events = .ok (c₁, emitted))
    (hrun : c.run T (events ++ more) = .ok (c₂, all)) : emitted <+: all := by
  simp only [Clob.run_append, hfirst, ok_bind] at hrun
  cases hlater : c₁.run T more with
  | error fault =>
    rw [hlater] at hrun
    cases hrun
  | ok r =>
    rw [hlater] at hrun
    obtain ⟨-, rfl⟩ := Prod.mk.inj (Except.ok.inj hrun)
    exact List.prefix_append ..

/-! ### What a step does -/

namespace Pipeline

variable {capacities : Capacities} {s : Pipeline} {r : Pipeline × List StreamWrite}

/-- The steps of the reader from `s`. -/
inductive ReaderStep (capacities : Capacities) (s : Pipeline) : Pipeline × List StreamWrite → Prop where
  | idle (hreader : s.reader = .done) : ReaderStep capacities s (s, [])
  | finish (hreader : s.reader = .reading []) :
      ReaderStep capacities s ({ s with reader := .pushing (.test .shutdown) none }, [])
  | accept {line : Bytes} {lines : List Bytes} {event : InputEvent}
      (hreader : s.reader = .reading (line :: lines)) (hline : parseLine line = .ok event) :
      ReaderStep capacities s ({ s with reader := .pushing (.test event) (some lines) }, [])
  | skip {line : Bytes} {lines : List Bytes} (hreader : s.reader = .reading (line :: lines))
      (hline : parseLine line = .skipped) :
      ReaderStep capacities s ({ s with reader := .reading lines }, [])
  | report {line diagnostic : Bytes} {lines : List Bytes}
      (hreader : s.reader = .reading (line :: lines)) (hline : parseLine line = .error diagnostic) :
      ReaderStep capacities s ({ s with reader := .reading lines }, [.err diagnostic])
  | again {loop loop' : PushLoop InputEvent} {lines : Option (List Bytes)} {orderQueue : List InputEvent}
      (hreader : s.reader = .pushing loop lines)
      (hloop : loop.step s.stop capacities.order s.orderQueue = (some loop', orderQueue)) :
      ReaderStep capacities s ({ s with reader := .pushing loop' lines, orderQueue }, [])
  | resume {loop : PushLoop InputEvent} {lines : Option (List Bytes)} {orderQueue : List InputEvent}
      (hreader : s.reader = .pushing loop lines)
      (hloop : loop.step s.stop capacities.order s.orderQueue = (none, orderQueue)) :
      ReaderStep capacities s ({ s with reader := resumeReader lines, orderQueue }, [])

theorem readerStep_spec (capacities : Capacities) (s : Pipeline) :
    ReaderStep capacities s (s.readerStep capacities) := by
  cases hreader : s.reader with
  | done =>
    rw [show s.readerStep capacities = (s, []) by simp only [readerStep, hreader]]
    exact .idle hreader
  | reading lines =>
    cases lines with
    | nil =>
      simp only [readerStep, hreader]
      exact .finish hreader
    | cons line lines =>
      simp only [readerStep, hreader]
      cases hline : parseLine line with
      | ok event => exact .accept hreader hline
      | skipped => exact .skip hreader hline
      | error diagnostic => exact .report hreader hline
  | pushing loop lines =>
    simp only [readerStep, hreader]
    cases hloop : loop.step s.stop capacities.order s.orderQueue with
    | mk next orderQueue =>
      cases next with
      | some loop' => exact .again hreader hloop
      | none => exact .resume hreader hloop

/-- The steps of the matcher from `s`. -/
inductive MatcherStep (capacities : Capacities) (s : Pipeline) : Pipeline × List StreamWrite → Prop where
  | idle (hmatcher : s.matcher = .done ∨ ∃ fault, s.matcher = .faulted fault) :
      MatcherStep capacities s (s, [])
  | stopped (hmatcher : s.matcher = .testing) (hstop : s.stop = true) :
      MatcherStep capacities s ({ s with matcher := .done }, [])
  | go (hmatcher : s.matcher = .testing) (hstop : s.stop = false) :
      MatcherStep capacities s ({ s with matcher := .popping }, [])
  | empty (hmatcher : s.matcher = .popping) (hqueue : s.orderQueue = []) :
      MatcherStep capacities s ({ s with matcher := .testing }, [])
  | take {event : InputEvent} {orderQueue : List InputEvent} (hmatcher : s.matcher = .popping)
      (hqueue : s.orderQueue = event :: orderQueue) :
      MatcherStep capacities s (handle { s with orderQueue } event, [])
  | again {loop loop' : PushLoop OutputEvent} {rest outputQueue : List OutputEvent} {exits : Bool}
      (hmatcher : s.matcher = .pushing loop rest exits)
      (hloop : loop.step s.stop capacities.output s.outputQueue = (some loop', outputQueue)) :
      MatcherStep capacities s ({ s with matcher := .pushing loop' rest exits, outputQueue }, [])
  | resume {loop : PushLoop OutputEvent} {rest outputQueue : List OutputEvent} {exits : Bool}
      (hmatcher : s.matcher = .pushing loop rest exits)
      (hloop : loop.step s.stop capacities.output s.outputQueue = (none, outputQueue)) :
      MatcherStep capacities s ({ s with matcher := resumeMatcher exits rest, outputQueue }, [])

theorem matcherStep_spec (capacities : Capacities) (s : Pipeline) :
    MatcherStep capacities s (s.matcherStep capacities) := by
  cases hmatcher : s.matcher with
  | done =>
    rw [show s.matcherStep capacities = (s, []) by simp only [matcherStep, hmatcher]]
    exact .idle (Or.inl hmatcher)
  | faulted fault =>
    rw [show s.matcherStep capacities = (s, []) by simp only [matcherStep, hmatcher]]
    exact .idle (Or.inr ⟨fault, hmatcher⟩)
  | testing =>
    simp only [matcherStep, hmatcher]
    by_cases hstop : s.stop = true
    · rw [if_pos hstop]
      exact .stopped hmatcher hstop
    · rw [if_neg hstop]
      exact .go hmatcher (Bool.eq_false_of_not_eq_true hstop)
  | popping =>
    cases hqueue : s.orderQueue with
    | nil =>
      have hstep : s.matcherStep capacities = ({ s with matcher := .testing }, []) := by
        simp only [matcherStep, hmatcher, hqueue]
      rw [hstep]
      exact .empty hmatcher hqueue
    | cons event orderQueue =>
      have hstep : s.matcherStep capacities = (handle { s with orderQueue } event, []) := by
        simp only [matcherStep, hmatcher, hqueue]
      rw [hstep]
      exact .take hmatcher hqueue
  | pushing loop rest exits =>
    simp only [matcherStep, hmatcher]
    cases hloop : loop.step s.stop capacities.output s.outputQueue with
    | mk next outputQueue =>
      cases next with
      | some loop' => exact .again hmatcher hloop
      | none => exact .resume hmatcher hloop

/-- Handling an event changes the book and the matcher; the matcher goes on to emit what there is. -/
theorem handle_eq (s : Pipeline) (event : InputEvent) (orderQueue : List InputEvent) :
    ∃ book matcher, handle { s with orderQueue } event = { s with book, matcher, orderQueue } ∧
      ((∃ exits rest, matcher = resumeMatcher exits rest) ∨ ∃ fault, matcher = .faulted fault) := by
  cases event with
  | shutdown => exact ⟨s.book, _, rfl, Or.inl ⟨true, [.shutdown], rfl⟩⟩
  | addOrder event =>
    simp only [handle]
    cases s.book.onInput .int64 (.addOrder event) with
    | error fault => exact ⟨s.book, _, rfl, Or.inr ⟨fault, rfl⟩⟩
    | ok r => exact ⟨r.1, _, rfl, Or.inl ⟨false, r.2, rfl⟩⟩
  | cancelOrder event =>
    simp only [handle]
    cases s.book.onInput .int64 (.cancelOrder event) with
    | error fault => exact ⟨s.book, _, rfl, Or.inr ⟨fault, rfl⟩⟩
    | ok r => exact ⟨r.1, _, rfl, Or.inl ⟨false, r.2, rfl⟩⟩

/-- The steps of the writer from `s`. -/
inductive WriterStep (s : Pipeline) : Pipeline × List StreamWrite → Prop where
  | idle (hwriter : s.writer = .stopped ∨ s.writer = .finished) : WriterStep s (s, [])
  | stopped (hwriter : s.writer = .testing) (hstop : s.stop = true) :
      WriterStep s ({ s with writer := .stopped }, [])
  | go (hwriter : s.writer = .testing) (hstop : s.stop = false) :
      WriterStep s ({ s with writer := .popping }, [])
  | empty (hwriter : s.writer = .popping) (hqueue : s.outputQueue = []) :
      WriterStep s ({ s with writer := .testing }, [])
  | finish {outputQueue : List OutputEvent} (hwriter : s.writer = .popping)
      (hqueue : s.outputQueue = .shutdown :: outputQueue) :
      WriterStep s ({ s with writer := .finished, outputQueue }, [])
  | write {event : OutputEvent} {outputQueue : List OutputEvent} (hwriter : s.writer = .popping)
      (hqueue : s.outputQueue = event :: outputQueue) (hevent : event ≠ .shutdown) :
      WriterStep s ({ s with writer := .testing, outputQueue }, [.out (format event)])

theorem writerStep_spec (s : Pipeline) : WriterStep s s.writerStep := by
  cases hwriter : s.writer with
  | stopped =>
    rw [show s.writerStep = (s, []) by simp only [writerStep, hwriter]]
    exact .idle (Or.inl hwriter)
  | finished =>
    rw [show s.writerStep = (s, []) by simp only [writerStep, hwriter]]
    exact .idle (Or.inr hwriter)
  | testing =>
    simp only [writerStep, hwriter]
    by_cases hstop : s.stop = true
    · rw [if_pos hstop]
      exact .stopped hwriter hstop
    · rw [if_neg hstop]
      exact .go hwriter (Bool.eq_false_of_not_eq_true hstop)
  | popping =>
    cases hqueue : s.outputQueue with
    | nil =>
      have hstep : s.writerStep = ({ s with writer := .testing }, []) := by
        simp only [writerStep, hwriter, hqueue]
      rw [hstep]
      exact .empty hwriter hqueue
    | cons event outputQueue =>
      by_cases hevent : event = .shutdown
      · subst hevent
        have hstep : s.writerStep = ({ s with writer := .finished, outputQueue }, []) := by
          simp only [writerStep, hwriter, hqueue]
        rw [hstep]
        exact .finish hwriter hqueue
      · have hstep : s.writerStep
            = ({ s with writer := .testing, outputQueue }, [.out (format event)]) := by
          cases event with
          | shutdown => exact absurd rfl hevent
          | _ => simp only [writerStep, hwriter, hqueue]
        rw [hstep]
        exact .write hwriter hqueue hevent

end Pipeline

/-! ### The agents as senders -/

namespace PushLoop

variable {α : Type} {loop : PushLoop α}

def Trying : PushLoop α → Prop
  | .test _ => False
  | .attempt _ => True

variable {stop : Bool} {capacity : Nat} {loop' : PushLoop α}
  {received queue queue' pending stream : List α}

/-- The loop goes on with the event that it has. -/
theorem carries_of_some
    (h : Carries (stop = true) loop.Trying (received ++ queue) (loop.event :: pending) stream)
    (hstep : loop.step stop capacity queue = (some loop', queue')) :
    Carries (stop = true) loop'.Trying (received ++ queue') (loop'.event :: pending) stream := by
  cases loop with
  | test event =>
    cases stop with
    | true => simp [PushLoop.step] at hstep
    | false =>
      obtain ⟨rfl, rfl⟩ : PushLoop.attempt event = loop' ∧ queue = queue' := by
        simpa [PushLoop.step] using hstep
      exact h.try_next (by decide)
  | attempt event =>
    rw [PushLoop.step] at hstep
    by_cases hspace : queue.length < capacity
    · rw [if_pos hspace] at hstep
      cases hstep
    · rw [if_neg hspace, Prod.mk.injEq, Option.some.injEq] at hstep
      obtain ⟨rfl, rfl⟩ := hstep
      exact h.mono id False.elim

/-- The loop is left, with its event pushed or given up. -/
theorem carries_of_none
    (h : Carries (stop = true) loop.Trying (received ++ queue) (loop.event :: pending) stream)
    (hstep : loop.step stop capacity queue = (none, queue')) :
    Carries (stop = true) False (received ++ queue') pending stream := by
  cases loop with
  | test event =>
    cases stop with
    | true =>
      obtain rfl : queue = queue' := (Prod.mk.inj hstep).2
      exact h.give_up rfl not_false
    | false => simp [PushLoop.step] at hstep
  | attempt event =>
    rw [PushLoop.step] at hstep
    by_cases hspace : queue.length < capacity
    · rw [if_pos hspace] at hstep
      rw [← (Prod.mk.inj hstep).2, ← List.append_assoc]
      exact h.send trivial
    · rw [if_neg hspace] at hstep
      cases hstep

/-- Without a stop a loop goes on with the same event, and is left once that is pushed. -/
theorem eq_of_some (hstep : loop.step false capacity queue = (some loop', queue')) :
    loop'.event = loop.event ∧ queue' = queue := by
  cases loop with
  | test event =>
    cases hstep
    exact ⟨rfl, rfl⟩
  | attempt event =>
    rw [PushLoop.step] at hstep
    split at hstep
    · cases hstep
    · cases hstep
      exact ⟨rfl, rfl⟩

theorem eq_of_none (hstep : loop.step false capacity queue = (none, queue')) :
    queue' = queue ++ [loop.event] := by
  cases loop with
  | test event => cases hstep
  | attempt event =>
    rw [PushLoop.step] at hstep
    split at hstep
    · cases hstep
      rfl
    · cases hstep

end PushLoop

namespace Reader

def Trying : Reader → Prop
  | .pushing loop _ => loop.Trying
  | _ => False

/-- The events that the reader has still to send. -/
def pending : Reader → List InputEvent
  | .reading lines => (parseLines lines).1 ++ [.shutdown]
  | .pushing loop (some lines) => loop.event :: ((parseLines lines).1 ++ [.shutdown])
  | .pushing loop none => [loop.event]
  | .done => []

@[simp] theorem pending_pushing (loop : PushLoop InputEvent) (lines : Option (List Bytes)) :
    pending (.pushing loop lines) = loop.event :: pending (Pipeline.resumeReader lines) := by
  cases lines <;> rfl

theorem not_trying_resumeReader (lines : Option (List Bytes)) :
    ¬ (Pipeline.resumeReader lines).Trying := by
  cases lines <;> exact not_false

end Reader

namespace Matcher

def Trying : Matcher → Prop
  | .pushing loop _ _ => loop.Trying
  | _ => False

/-- The events that the matcher has still to send for the event at hand. -/
def pending : Matcher → List OutputEvent
  | .pushing loop rest _ => loop.event :: rest
  | _ => []

/-- The matcher will not take another event. -/
def Exiting : Matcher → Prop
  | .pushing _ _ exits => exits = true
  | .done => True
  | _ => False

@[simp] theorem pending_resumeMatcher (exits : Bool) (rest : List OutputEvent) :
    (Pipeline.resumeMatcher exits rest).pending = rest := by
  cases rest with
  | nil => cases exits <;> rfl
  | cons event rest => rfl

/-- Behind a push the matcher starts on the next one, or is done with the event. -/
theorem resumeMatcher_cases {P : Matcher → Prop} {exits : Bool}
    (hpushing : ∀ event rest, P (.pushing (.test event) rest exits)) (hdone : exits = true → P .done)
    (htesting : exits = false → P .testing) (rest : List OutputEvent) :
    P (Pipeline.resumeMatcher exits rest) := by
  cases rest with
  | nil =>
    cases exits with
    | false => exact htesting rfl
    | true => exact hdone rfl
  | cons event rest => exact hpushing event rest

theorem not_trying_resumeMatcher (exits : Bool) (rest : List OutputEvent) :
    ¬ (Pipeline.resumeMatcher exits rest).Trying := by
  apply resumeMatcher_cases (P := fun matcher => ¬ matcher.Trying)
  · exact fun _ _ => not_false
  · exact fun _ => not_false
  · exact fun _ => not_false

theorem exiting_resumeMatcher_iff {exits : Bool} {rest : List OutputEvent} :
    (Pipeline.resumeMatcher exits rest).Exiting ↔ exits = true := by
  apply resumeMatcher_cases (P := fun matcher => matcher.Exiting ↔ exits = true)
  · exact fun _ _ => Iff.rfl
  · exact fun hexits => iff_of_true trivial hexits
  · exact fun hexits => iff_of_false not_false (hexits ▸ Bool.false_ne_true)

end Matcher

/-! ### The invariant -/

/-- What has been written to the standard output. -/
def outText (writes : List StreamWrite) : Bytes :=
  writes.flatMap fun
    | .out text => text
    | .err _ => []

theorem outText_append (writes more : List StreamWrite) :
    outText (writes ++ more) = outText writes ++ outText more :=
  List.flatMap_append

/-- What the matcher sends behind the events of the book. -/
def sentinel (taken : List InputEvent) : List OutputEvent :=
  if .shutdown ∈ taken then [.shutdown] else []

/-- The matcher has taken `taken`, for which the book has emitted `emitted`, and the writer has handled
`handled`. -/
structure Flow (input : Bytes) (s : Pipeline) (writes : List StreamWrite) (taken : List InputEvent)
    (emitted handled : List OutputEvent) : Prop where
  run_eq : Clob.run .int64 {} taken = .ok (s.book, emitted)
  orders : Carries (s.stop = true) s.reader.Trying (taken ++ s.orderQueue) s.reader.pending
    ((parseStream input).1 ++ [.shutdown])
  exits : .shutdown ∈ taken → s.matcher.Exiting
  outputs : Carries (s.stop = true) s.matcher.Trying (handled ++ s.outputQueue) s.matcher.pending
    (emitted ++ sentinel taken)
  written : outText writes = handled.flatMap format
  finished : s.writer = .finished → .shutdown ∈ handled

namespace Flow

variable {input : Bytes} {capacities : Capacities} {s : Pipeline} {writes : List StreamWrite}
  {taken : List InputEvent} {emitted handled : List OutputEvent}

theorem initial (input : Bytes) : Flow input (Pipeline.initial input) [] [] [] [] where
  run_eq := rfl
  orders := carries_start ..
  exits hmem := absurd hmem List.not_mem_nil
  outputs := carries_start ..
  written := rfl
  finished hwriter := Writer.noConfusion hwriter

/-- Writing to the error stream is not writing to the output. -/
theorem silent (h : Flow input s writes taken emitted handled) {more : List StreamWrite}
    (hmore : outText more = []) : Flow input s (writes ++ more) taken emitted handled :=
  ⟨h.run_eq, h.orders, h.exits, h.outputs, by rw [outText_append, hmore, List.append_nil, h.written],
    h.finished⟩

theorem with_reader (h : Flow input s writes taken emitted handled) {reader : Reader}
    {orderQueue : List InputEvent}
    (horders : Carries (s.stop = true) reader.Trying (taken ++ orderQueue) reader.pending
      ((parseStream input).1 ++ [.shutdown])) :
    Flow input { s with reader, orderQueue } writes taken emitted handled :=
  ⟨h.run_eq, horders, h.exits, h.outputs, h.written, h.finished⟩

theorem with_matcher (h : Flow input s writes taken emitted handled) (matcher : Matcher)
    {outputQueue : List OutputEvent} (hexits : .shutdown ∈ taken → matcher.Exiting)
    (houtputs : Carries (s.stop = true) matcher.Trying (handled ++ outputQueue) matcher.pending
      (emitted ++ sentinel taken)) :
    Flow input { s with matcher, outputQueue } writes taken emitted handled :=
  ⟨h.run_eq, h.orders, hexits, houtputs, h.written, h.finished⟩

theorem with_writer (h : Flow input s writes taken emitted handled) {writer : Writer}
    (hfinished : writer = .finished → .shutdown ∈ handled) :
    Flow input { s with writer } writes taken emitted handled :=
  ⟨h.run_eq, h.orders, h.exits, h.outputs, h.written, hfinished⟩

/-! #### The reader -/

theorem readerStep (h : Flow input s writes taken emitted handled) {r : Pipeline × List StreamWrite}
    (hstep : Pipeline.ReaderStep capacities s r) :
    Flow input r.1 (writes ++ r.2) taken emitted handled := by
  have horders := h.orders
  cases hstep with
  | idle => exact h.silent rfl
  | finish hreader =>
    rw [hreader] at horders
    apply silent (h.with_reader _) rfl
    exact horders.mono id id
  | accept hreader hline =>
    rw [hreader, Reader.pending, parseLines, hline] at horders
    exact (h.with_reader (horders.mono id id)).silent rfl
  | skip hreader hline =>
    rw [hreader, Reader.pending, parseLines, hline] at horders
    exact (h.with_reader horders).silent rfl
  | report hreader hline =>
    rw [hreader, Reader.pending, parseLines, hline] at horders
    exact (h.with_reader horders).silent rfl
  | @again loop loop' lines orderQueue hreader hloop =>
    rw [hreader, Reader.pending_pushing] at horders
    have hcarries := PushLoop.carries_of_some horders hloop
    rw [← Reader.pending_pushing] at hcarries
    exact (h.with_reader hcarries).silent rfl
  | @resume loop lines orderQueue hreader hloop =>
    rw [hreader, Reader.pending_pushing] at horders
    have hcarries := (PushLoop.carries_of_none horders hloop).mono id
      (Reader.not_trying_resumeReader lines)
    exact (h.with_reader hcarries).silent rfl

/-! #### The matcher -/

theorem not_mem_taken (h : Flow input s writes taken emitted handled) (hnot : ¬ s.matcher.Exiting) :
    .shutdown ∉ taken :=
  fun hmem => hnot (h.exits hmem)

/-- All that the matcher takes was sent by the reader. -/
theorem taken_isPrefix (h : Flow input s writes taken emitted handled) :
    taken ++ s.orderQueue <+: (parseStream input).1 ++ [.shutdown] :=
  h.orders.sent_isPrefix

theorem fits_of_isPrefix {events : List InputEvent}
    (h : events <+: (parseStream input).1 ++ [.shutdown]) : ∀ e ∈ events, e.Fits .int64 := by
  intro e he
  rcases List.mem_append.mp (h.subset he) with hmem | hmem
  · exact (fits_of_mem_parseLines e hmem).1
  · rw [List.mem_singleton.mp hmem]
    trivial

/-- The matcher takes an event, and sends on what the book emits for it and the sentinel. -/
theorem take (h : Flow input s writes taken emitted handled) (hpopping : s.matcher = .popping)
    {event : InputEvent} {orderQueue : List InputEvent} (hqueue : s.orderQueue = event :: orderQueue)
    {book : Clob} {out : List OutputEvent} (hinput : s.book.onInput .int64 event = .ok (book, out))
    (exits : Bool) (hexits : event = .shutdown → exits = true) :
    Flow input { s with orderQueue, book, matcher := Pipeline.resumeMatcher exits (out ++ sentinel [event]) }
      writes (taken ++ [event]) (emitted ++ out) handled := by
  have hnot : .shutdown ∉ taken := h.not_mem_taken (by rw [hpopping]; exact not_false)
  have hsentinel : sentinel (taken ++ [event]) = sentinel [event] := by
    simp [sentinel, hnot]
  have horders := h.orders
  have houtputs := h.outputs
  rw [hqueue, ← List.singleton_append, ← List.append_assoc] at horders
  rw [hpopping, show sentinel taken = [] from if_neg hnot, List.append_nil] at houtputs
  refine ⟨Clob.run_concat h.run_eq hinput, horders, ?_, ?_, h.written, h.finished⟩
  · intro hmem
    have hevent : event = .shutdown :=
      (List.mem_singleton.mp ((List.mem_append.mp hmem).resolve_left hnot)).symm
    exact Matcher.exiting_resumeMatcher_iff.mpr (hexits hevent)
  · rw [hsentinel, List.append_assoc, Matcher.pending_resumeMatcher]
    exact houtputs.extend (Matcher.not_trying_resumeMatcher _ _) _

/-- The book does not fault on what the matcher takes. -/
theorem onInput_ok (h : Flow input s writes taken emitted handled) {event : InputEvent}
    {orderQueue : List InputEvent} (hqueue : s.orderQueue = event :: orderQueue) :
    ∃ r, s.book.onInput .int64 event = .ok r := by
  have htaken := h.taken_isPrefix
  rw [hqueue, ← List.singleton_append, ← List.append_assoc] at htaken
  have hfits := fits_of_isPrefix ((List.prefix_append ..).trans htaken)
  obtain ⟨c, emitted', levels, hrun, hc⟩ := run_represents (T := .int64) taken fun e he =>
    hfits e (List.mem_append_left _ he)
  obtain ⟨rfl, rfl⟩ := ok_unique h.run_eq hrun
  obtain ⟨c', levels', hinput, -⟩ := hc.onInput (hfits event (List.mem_append_right _ (by simp)))
  exact ⟨_, hinput⟩

theorem handle (h : Flow input s writes taken emitted handled) (hpopping : s.matcher = .popping)
    {event : InputEvent} {orderQueue : List InputEvent} (hqueue : s.orderQueue = event :: orderQueue) :
    ∃ out, Flow input (Pipeline.handle { s with orderQueue } event) writes (taken ++ [event])
      (emitted ++ out) handled := by
  obtain ⟨r, hinput⟩ := h.onInput_ok hqueue
  cases event with
  | shutdown => exact ⟨[], h.take hpopping hqueue rfl true fun _ => rfl⟩
  | addOrder event =>
    have hnext := h.take hpopping hqueue hinput false InputEvent.noConfusion
    rw [show sentinel [.addOrder event] = [] from rfl, List.append_nil] at hnext
    simp only [Pipeline.handle, hinput]
    exact ⟨_, hnext⟩
  | cancelOrder event =>
    have hnext := h.take hpopping hqueue hinput false InputEvent.noConfusion
    rw [show sentinel [.cancelOrder event] = [] from rfl, List.append_nil] at hnext
    simp only [Pipeline.handle, hinput]
    exact ⟨_, hnext⟩

theorem matcherStep (h : Flow input s writes taken emitted handled) {r : Pipeline × List StreamWrite}
    (hstep : Pipeline.MatcherStep capacities s r) :
    ∃ taken' emitted', Flow input r.1 (writes ++ r.2) taken' emitted' handled := by
  have houtputs := h.outputs
  cases hstep with
  | idle => exact ⟨taken, emitted, h.silent rfl⟩
  | stopped hmatcher =>
    rw [hmatcher] at houtputs
    exact ⟨taken, emitted, (h.with_matcher .done (fun _ => trivial) houtputs).silent rfl⟩
  | go hmatcher =>
    have hnot : .shutdown ∉ taken := h.not_mem_taken (by rw [hmatcher]; exact not_false)
    rw [hmatcher] at houtputs
    exact ⟨taken, emitted, (h.with_matcher .popping (fun hmem => absurd hmem hnot) houtputs).silent rfl⟩
  | empty hmatcher =>
    have hnot : .shutdown ∉ taken := h.not_mem_taken (by rw [hmatcher]; exact not_false)
    rw [hmatcher] at houtputs
    exact ⟨taken, emitted, (h.with_matcher .testing (fun hmem => absurd hmem hnot) houtputs).silent rfl⟩
  | @take event orderQueue hmatcher hqueue =>
    obtain ⟨out, hnext⟩ := h.handle hmatcher hqueue
    exact ⟨taken ++ [event], emitted ++ out, hnext.silent rfl⟩
  | @again loop loop' rest outputQueue exits hmatcher hloop =>
    have hexits : .shutdown ∈ taken → exits = true := fun hmem => by
      simpa [hmatcher, Matcher.Exiting] using h.exits hmem
    rw [hmatcher] at houtputs
    exact ⟨taken, emitted, (h.with_matcher (.pushing loop' rest exits) hexits
      (PushLoop.carries_of_some houtputs hloop)).silent rfl⟩
  | @resume loop rest outputQueue exits hmatcher hloop =>
    have hexits : .shutdown ∈ taken → exits = true := fun hmem => by
      simpa [hmatcher, Matcher.Exiting] using h.exits hmem
    rw [hmatcher] at houtputs
    have hcarries := (PushLoop.carries_of_none houtputs hloop).mono id
      (Matcher.not_trying_resumeMatcher exits rest)
    refine ⟨taken, emitted, (h.with_matcher _ ?_ ?_).silent rfl⟩
    · intro hmem
      exact Matcher.exiting_resumeMatcher_iff.mpr (hexits hmem)
    · rwa [Matcher.pending_resumeMatcher]

/-! #### The writer -/

theorem writerStep (h : Flow input s writes taken emitted handled) {r : Pipeline × List StreamWrite}
    (hstep : Pipeline.WriterStep s r) :
    ∃ handled', Flow input r.1 (writes ++ r.2) taken emitted handled' := by
  have houtputs := h.outputs
  cases hstep with
  | idle => exact ⟨handled, h.silent rfl⟩
  | stopped => exact ⟨handled, (h.with_writer fun hfinished => Writer.noConfusion hfinished).silent rfl⟩
  | go => exact ⟨handled, (h.with_writer fun hfinished => Writer.noConfusion hfinished).silent rfl⟩
  | empty => exact ⟨handled, (h.with_writer fun hfinished => Writer.noConfusion hfinished).silent rfl⟩
  | @finish outputQueue hwriter hqueue =>
    rw [hqueue, ← List.singleton_append, ← List.append_assoc] at houtputs
    refine ⟨handled ++ [.shutdown], h.run_eq, h.orders, h.exits, houtputs, ?_, fun _ => by simp⟩
    rw [outText_append, h.written, List.flatMap_append]
    rfl
  | @write event outputQueue hwriter hqueue hevent =>
    rw [hqueue, ← List.singleton_append, ← List.append_assoc] at houtputs
    refine ⟨handled ++ [event], h.run_eq, h.orders, h.exits, houtputs, ?_,
      fun hfinished => Writer.noConfusion hfinished⟩
    rw [outText_append, h.written, List.flatMap_append]
    simp [outText]

theorem step (h : Flow input s writes taken emitted handled) (capacities : Capacities)
    (mover : Mover) :
    ∃ taken' emitted' handled', Flow input (s.step capacities mover).1
      (writes ++ (s.step capacities mover).2) taken' emitted' handled' := by
  cases mover with
  | reader => exact ⟨taken, emitted, handled, h.readerStep (Pipeline.readerStep_spec capacities s)⟩
  | matcher =>
    obtain ⟨taken', emitted', hnext⟩ := h.matcherStep (Pipeline.matcherStep_spec capacities s)
    exact ⟨taken', emitted', handled, hnext⟩
  | writer =>
    obtain ⟨handled', hnext⟩ := h.writerStep (Pipeline.writerStep_spec s)
    exact ⟨taken, emitted, handled', hnext⟩
  | requestStop =>
    refine ⟨taken, emitted, handled, silent ?_ rfl⟩
    exact ⟨h.run_eq, h.orders.mono (fun _ => rfl) id, h.exits, h.outputs.mono (fun _ => rfl) id,
      h.written, h.finished⟩

/-- What the writer has handled, against a sequential run. -/
theorem handled_isPrefix (h : Flow input s writes taken emitted handled) {c : Clob}
    {reference : List OutputEvent}
    (hrun : Clob.run .int64 {} (parseStream input).1 = .ok (c, reference)) :
    handled <+: reference ++ [.shutdown] := by
  have hhandled := (List.prefix_append handled s.outputQueue).trans h.outputs.sent_isPrefix
  have htaken := (List.prefix_append taken s.orderQueue).trans h.taken_isPrefix
  apply hhandled.trans
  rcases List.prefix_concat_iff.mp htaken with hall | hsome
  · have hemitted : emitted = reference := by
      have hshutdown : Clob.run .int64 {} taken = .ok (c, reference ++ []) := by
        rw [hall]
        exact Clob.run_concat hrun rfl
      rw [h.run_eq, List.append_nil] at hshutdown
      exact (Prod.mk.inj (Except.ok.inj hshutdown)).2
    have hmem : .shutdown ∈ taken := by
      rw [hall]
      simp
    rw [hemitted, sentinel, if_pos hmem]
  · have hnot : .shutdown ∉ taken := fun hmem => (fits_of_mem_parseLines _ (hsome.subset hmem)).2 rfl
    obtain ⟨more, hmore⟩ := hsome
    rw [← hmore] at hrun
    rw [sentinel, if_neg hnot, List.append_nil]
    exact (Clob.run_isPrefix h.run_eq hrun).trans (List.prefix_append ..)

end Flow

theorem run_flow (capacities : Capacities) (input : Bytes) (schedule : List Mover) :
    ∃ taken emitted handled, Flow input (Pipeline.run capacities input schedule).1
      (Pipeline.run capacities input schedule).2 taken emitted handled := by
  apply Interleaving.run_invariant
    (P := fun s writes => ∃ taken emitted handled, Flow input s writes taken emitted handled)
  · exact ⟨[], [], [], Flow.initial input⟩
  · rintro s writes mover ⟨taken, emitted, handled, h⟩
    exact h.step capacities mover

/-- **What is written under every interleaving.** The events of the stream have a sequential run, and
at every moment the text written is that of the first so many events that it emits; all of them, once
the writer has handled the shutdown. -/
theorem pipeline_writes (capacities : Capacities) (input : Bytes) :
    ∃ c reference, Clob.run .int64 {} (parseStream input).1 = .ok (c, reference) ∧
      ∀ schedule, ∃ n, outText (Pipeline.run capacities input schedule).2
          = (reference.take n).flatMap format ∧
        ((Pipeline.run capacities input schedule).1.writer = .finished →
          outText (Pipeline.run capacities input schedule).2 = reference.flatMap format) := by
  have hfits : ∀ e ∈ (parseStream input).1, e.Fits .int64 := fun e he => (fits_of_mem_parseLines e he).1
  obtain ⟨c, reference, levels, hrun, -⟩ := run_represents (parseStream input).1 hfits
  refine ⟨c, reference, hrun, ?_⟩
  intro schedule
  obtain ⟨taken, emitted, handled, h⟩ := run_flow capacities input schedule
  rw [h.written]
  rcases List.prefix_concat_iff.mp (h.handled_isPrefix hrun) with hall | hsome
  · have htext : handled.flatMap format = reference.flatMap format := by
      rw [hall, List.flatMap_append]
      exact List.append_nil _
    refine ⟨reference.length, ?_, fun _ => htext⟩
    rw [htext, List.take_length]
  · refine ⟨handled.length, ?_, ?_⟩
    · rw [← List.prefix_iff_eq_take.mp hsome]
    · intro hfinished
      exact absurd (hsome.subset (h.finished hfinished)) (shutdown_not_mem_run hfits hrun)

end MatchingEngine
