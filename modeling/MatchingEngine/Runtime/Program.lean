import MatchingEngine.Model.Program
import MatchingEngine.Runtime.AgentSystem
import MatchingEngine.Runtime.RingPipeline
import MatchingEngine.Runtime.Termination
import MatchingEngine.Text.RoundTrip

/-!
# What the program writes by the time it returns

The program is its three agents over queues, once the rings have been taken for queues and the main
thread is left out. When it returns every line has been read, so all diagnostics are out, stop or not; and
without a stop all that the book emits in a sequential run is out too. Under every fair schedule it
returns.
-/

namespace MatchingEngine

/-! ### Diagnostics -/

namespace Pipeline

variable {capacities : Capacities} {s : Pipeline} {writes : List StreamWrite} {input : Bytes}

/-- What is on the error stream, and what the lines still to be read add to it, is all there is. -/
def Reports (input : Bytes) (s : Pipeline) (writes : List StreamWrite) : Prop :=
  errText writes ++ (parseLines s.reader.unread).2 = (parseStream input).2

theorem ReaderStep.reports {r : Pipeline × List StreamWrite} (hstep : ReaderStep capacities s r)
    (h : Reports input s writes) : Reports input r.1 (writes ++ r.2) := by
  rw [Reports, errText_append, ← h, List.append_assoc]
  congr 1
  cases hstep with
  | idle => rfl
  | finish hreader =>
    rw [hreader]
    rfl
  | accept hreader hline =>
    rw [hreader]
    simp only [Reader.unread, parseLines, hline]
    rfl
  | skip hreader hline =>
    rw [hreader]
    simp only [Reader.unread, parseLines, hline]
    rfl
  | report hreader hline =>
    rw [hreader]
    simp [Reader.unread, parseLines, hline, errText]
  | again hreader =>
    rw [hreader]
    rfl
  | resume hreader =>
    rw [hreader, Reader.unread_resumeReader]
    rfl

theorem Reports.step (h : Reports input s writes) (mover : Mover) :
    Reports input (s.step capacities mover).1 (writes ++ (s.step capacities mover).2) := by
  cases mover with
  | reader => exact (readerStep_spec capacities s).reports h
  | matcher =>
    obtain ⟨⟨matcher, book, orderQueue, outputQueue, hframe⟩, hwrites⟩ :=
      (matcherStep_spec capacities s).frame
    rw [Pipeline.step, hframe, hwrites, List.append_nil]
    exact h
  | writer =>
    obtain ⟨⟨writer, outputQueue, hframe⟩, hwrites⟩ := (writerStep_spec s).frame
    rw [Pipeline.step, hframe, Reports, errText_append, hwrites, List.append_nil]
    exact h
  | requestStop =>
    rw [Pipeline.step, List.append_nil]
    exact h

theorem run_reports (capacities : Capacities) (input : Bytes) (schedule : List Mover) :
    Reports input (run capacities input schedule).1 (run capacities input schedule).2 :=
  Interleaving.run_invariant (step capacities) (P := Reports input) (s := initial input) rfl
    (fun _ _ mover h => h.step mover) schedule

end Pipeline

/-- What the writer has written is what the first so many events of a sequential run are; all of them, if
it has handled the shutdown. -/
theorem Flow.outText_eq {input : Bytes} {s : Pipeline} {writes : List StreamWrite}
    {taken : List InputEvent} {emitted handled reference : List OutputEvent}
    (h : Flow input s writes taken emitted handled) {c : Clob}
    (hrun : Clob.run .int64 {} (parseStream input).1 = .ok (c, reference)) :
    (∃ n, outText writes = (reference.take n).flatMap format) ∧
      (s.writer = .finished → outText writes = reference.flatMap format) := by
  have hnot := shutdown_not_mem_run (fun e he => (fits_of_mem_parseLines e he).1) hrun
  rw [h.written]
  rcases List.prefix_concat_iff.mp (h.handled_isPrefix hrun) with hall | hsome
  · have htext : handled.flatMap format = reference.flatMap format := by
      rw [hall, List.flatMap_append]
      exact List.append_nil _
    exact ⟨⟨reference.length, by rw [htext, List.take_length]⟩, fun _ => htext⟩
  · refine ⟨⟨handled.length, by rw [← List.prefix_iff_eq_take.mp hsome]⟩, fun hfinished => ?_⟩
    exact absurd (hsome.subset (h.finished hfinished)) hnot

/-! ### The agents over rings -/

namespace RingPipeline

open Interleaving (Helped)

theorem StandsFor.exited_iff {capacities : RingCapacities} {s : RingPipeline} {p : Pipeline}
    (h : StandsFor capacities s p) :
    (∀ agent ∈ Program.agents, s.returned agent = true) ↔ p.Exited := by
  obtain ⟨orderQueue, outputQueue, rfl, -⟩ := h
  simp [Program.agents, returned, Pipeline.Exited, onQueues]

/-- An agent helps over rings where it helps over queues. -/
theorem ringPipeline_helped (capacities : RingCapacities) (input : Bytes) :
    Helped (RingPipeline.step capacities) (· ≠ .requestStop) (fun _ => True)
      (fun s => ∀ agent ∈ Program.agents, s.returned agent = true)
      (fun s (a : Pipeline × Pipeline) => StandsFor capacities s a.1 ∧ a.1 = a.2 ∧ Live input a.2)
      (fun a => a.2.outstanding) (fun a => a.2.Helps capacities.queues)
      (fun s a mover => (8 + 1) * a.2.pace mover + s.callsLeft mover) := by
  have horder : 0 < capacities.queues.order := Nat.sub_pos_of_lt capacities.order.two_le
  have houtput : 0 < capacities.queues.output := Nat.sub_pos_of_lt capacities.output.two_le
  refine (pipeline_helped capacities.queues horder houtput input).of_stuttering callsLeft 8
    (fun h hexited => h.exited_iff.mpr hexited) callsLeft_le
    (fun s _ _ h => callsLeft_step_of_ne capacities s h) ?_
  rintro s p ⟨orderQueue, outputQueue, rfl, h⟩ mover
  rcases h.step mover with hstutters | ⟨orderQueue', outputQueue', hsame, himplements⟩
  · exact Or.inl ⟨⟨orderQueue, outputQueue, hstutters.same.symm, hstutters.implements⟩,
      hstutters.calls_lt⟩
  · refine Or.inr ⟨orderQueue', outputQueue', ?_, himplements⟩
    rw [hsame]

end RingPipeline

/-! ### The program -/

namespace Program

open Interleaving (Fair moves)

/-- The program is a pipeline over queues in which the same agents move. -/
theorem run_pipeline (input : Bytes) (schedule : List (AgentSystem.Mover Mover)) :
    ∃ schedule', (∀ mover ∈ schedule', .loop mover ∈ schedule) ∧
      RingPipeline.StandsFor capacities (run input schedule).1.loops
        (Pipeline.run capacities.queues input schedule').1 ∧
      (Pipeline.run capacities.queues input schedule').2 = (run input schedule).2 := by
  obtain ⟨loops, hloops, hrun⟩ := AgentSystem.run_loops agents RingPipeline.returned
    (RingPipeline.step capacities) (initial input) schedule
  obtain ⟨schedule', hmovers, hstands, hsame⟩ := RingPipeline.run_standsFor capacities input loops
  change RingPipeline.run capacities input loops = _ at hrun
  rw [hrun] at hstands hsame
  exact ⟨schedule', fun mover hmover => hloops mover (hmovers mover hmover), hstands, hsame⟩

section Returned

variable {input : Bytes} {schedule : List (AgentSystem.Mover Mover)}
  (hmain : (run input schedule).1.main = .returned)

include hmain

/-- The agents have been joined by then, so they have all gone. -/
theorem exited_of_returned {p : Pipeline}
    (hstands : RingPipeline.StandsFor capacities (run input schedule).1.loops p) : p.Exited := by
  apply hstands.exited_iff.mp
  exact AgentSystem.run_joined (RingPipeline.returned_step capacities) (.initial input) schedule hmain

theorem errText_of_returned : errText (run input schedule).2 = (parseStream input).2 := by
  obtain ⟨schedule', -, hstands, hsame⟩ := run_pipeline input schedule
  obtain ⟨hreader, -, -⟩ := exited_of_returned hmain hstands
  have hreports := Pipeline.run_reports capacities.queues input schedule'
  rw [hsame, Pipeline.Reports, hreader] at hreports
  simpa [Reader.unread, parseLines] using hreports

theorem outText_of_returned {c : Clob} {reference : List OutputEvent}
    (hrun : Clob.run .int64 {} (parseStream input).1 = .ok (c, reference)) :
    (∃ n, outText (run input schedule).2 = (reference.take n).flatMap format) ∧
      (.loop .requestStop ∉ schedule → outText (run input schedule).2 = reference.flatMap format) := by
  obtain ⟨schedule', hmovers, hstands, hsame⟩ := run_pipeline input schedule
  obtain ⟨-, -, hwriter⟩ := exited_of_returned hmain hstands
  obtain ⟨taken, emitted, handled, hflow⟩ := run_flow capacities.queues input schedule'
  rw [hsame] at hflow
  obtain ⟨hfirst, hall⟩ := hflow.outText_eq hrun
  refine ⟨hfirst, fun hstop => hall ?_⟩
  have hs := run_undisturbed capacities.queues input fun hmem => hstop (hmovers _ hmem)
  exact hwriter.resolve_left hs.writer

end Returned

/-- **What is out when the program returns.** All diagnostics; of the output, the first so many events
of a sequential run; and all of them, unless a stop was requested. -/
theorem program_writes (input : Bytes) (schedule : List (AgentSystem.Mover Mover))
    (hmain : (run input schedule).1.main = .returned) :
    errText (run input schedule).2 = (parseStream input).2 ∧
      ∃ c reference, Clob.run .int64 {} (parseStream input).1 = .ok (c, reference) ∧
        (∃ n, outText (run input schedule).2 = (reference.take n).flatMap format) ∧
        (.loop .requestStop ∉ schedule →
          outText (run input schedule).2 = reference.flatMap format) := by
  obtain ⟨c, reference, -, hrun, -⟩ := run_represents (parseStream input).1
    fun e he => (fits_of_mem_parseLines e he).1
  obtain ⟨hfirst, hall⟩ := outText_of_returned hmain hrun
  exact ⟨errText_of_returned hmain, c, reference, hrun, hfirst, hall⟩

/-- The main thread and the agents in turn. -/
def roundRobin (n : ℕ) : AgentSystem.Mover Mover :=
  match n % 4 with
  | 0 => .main
  | 1 => .loop .reader
  | 2 => .loop .matcher
  | _ => .loop .writer

theorem program_writes_unknown :
    outText (run (ascii "X\nCXL,1\n") (moves roundRobin 128)).2 = ascii "REJ,1,UNK\n" := by
  obtain ⟨-, c, reference, hrun, -, hall⟩ :=
    program_writes (ascii "X\nCXL,1\n") (moves roundRobin 128) (by decide +kernel)
  have hreference : Clob.run .int64 {} (parseStream (ascii "X\nCXL,1\n")).1
      = Except.ok ({}, [.orderRejected ⟨1, .unknownOrderId⟩]) := rfl
  obtain ⟨-, rfl⟩ := ok_unique hrun hreference
  rw [hall (by decide +kernel)]
  decide +kernel

/-- **From events to events.** Whatever layout and noise its messages come in, and in whatever order the
threads go on: if no stop is requested, what the program has written when it returns is decoded to what
the book emits for the messages, and if nothing but the messages was written no error is. -/
theorem program_roundTrip (messages : List (Zeros × InputEvent))
    (hmessages : ∀ message ∈ messages, message.2 ≠ .shutdown ∧ message.2.Fits .int64)
    (input : Bytes) (hinput : SameUpToLayout (writeStream messages) input)
    (schedule : List (AgentSystem.Mover Mover)) (hstop : .loop .requestStop ∉ schedule)
    (hmain : (run input schedule).1.main = .returned) :
    ∃ c emitted, Clob.run .int64 {} (messages.map Prod.snd) = .ok (c, emitted) ∧
      decode (outText (run input schedule).2) = some emitted ∧
      (input = writeStream messages → errText (run input schedule).2 = []) := by
  have hwritten := parseStream_writeStream hmessages
  have hevents : (parseStream input).1 = messages.map Prod.snd := by
    rw [events_sameUpToLayout hinput, hwritten]
  have hfits : ∀ e ∈ messages.map Prod.snd, e.Fits .int64 := by
    intro e he
    obtain ⟨message, hmem, rfl⟩ := List.mem_map.mp he
    exact (hmessages message hmem).2
  obtain ⟨c, emitted, -, hrun, -⟩ := run_represents (messages.map Prod.snd) hfits
  have hprintable : ∀ e ∈ emitted, e.Printable := by
    intro e he
    refine ⟨fun heq => ?_, run_emitted_fits hfits hrun e he⟩
    exact shutdown_not_mem_run hfits hrun (heq ▸ he)
  refine ⟨c, emitted, hrun, ?_, fun heq => ?_⟩
  · rw [← hevents] at hrun
    rw [(outText_of_returned hmain hrun).2 hstop, decode_format hprintable]
  · rw [errText_of_returned hmain, heq, hwritten]

theorem program_roundTrip_crlf :
    ∃ c emitted, Clob.run .int64 {} [.cancelOrder ⟨1⟩] = .ok (c, emitted) ∧
      decode (outText (run (ascii "CXL,001\r\n") (moves roundRobin 128)).2) = some emitted := by
  have hsame : SameUpToLayout (ascii "CXL,001\n") (ascii "CXL,001\r\n") :=
    Relation.EqvGen.rel _ _ <| LayoutEdit.indent (Or.inl rfl) (Or.inr ⟨[], rfl⟩) (by decide)
      ⟨ascii "CXL,001", [], 13, rfl, rfl, by decide, Or.inr (Or.inl rfl)⟩
  obtain ⟨c, emitted, hrun, hdecode, -⟩ := program_roundTrip [(⟨2, 0, 0⟩, .cancelOrder ⟨1⟩)]
    (by decide +kernel) (ascii "CXL,001\r\n") hsame (moves roundRobin 128) (by decide +kernel)
    (by decide +kernel)
  exact ⟨c, emitted, hrun, hdecode⟩

/-- **Every fair schedule brings the program to return**, stop or not. -/
theorem program_returns (input : Bytes) (schedule : ℕ → AgentSystem.Mover Mover)
    (hfair : Fair (AgentSystem.Mover.Among (· ≠ .requestStop)) schedule) :
    ∃ n, (run input (moves schedule n)).1.main = .returned := by
  have hhelped := AgentSystem.helped (RingPipeline.returned_step capacities)
    (RingPipeline.ringPipeline_helped capacities input) fun _ h => h
  exact hhelped.eventually (a := (initial input, Pipeline.initial input, Pipeline.initial input))
    ⟨rfl, ⟨RingPipeline.standsFor_initial capacities input, rfl, Live.initial input⟩, trivial⟩ hfair
    fun n => AgentSystem.Mover.among_of_forall (fun _ => trivial) (schedule n)

theorem fair_roundRobin : Fair (AgentSystem.Mover.Among (· ≠ .requestStop)) roundRobin := by
  rintro (_ | mover) hmover n
  · exact ⟨4 * n, by omega, by simp only [roundRobin, show 4 * n % 4 = 0 by omega]⟩
  · cases mover with
    | reader => exact ⟨4 * n + 1, by omega, by simp only [roundRobin, show (4 * n + 1) % 4 = 1 by omega]⟩
    | matcher => exact ⟨4 * n + 2, by omega, by simp only [roundRobin, show (4 * n + 2) % 4 = 2 by omega]⟩
    | writer => exact ⟨4 * n + 3, by omega, by simp only [roundRobin, show (4 * n + 3) % 4 = 3 by omega]⟩
    | requestStop => exact absurd rfl hmover

theorem program_returns_roundRobin :
    ∃ n, (run (ascii "ADD,1,BUY,5,100,GTC\n") (moves roundRobin n)).1.main = .returned :=
  program_returns (ascii "ADD,1,BUY,5,100,GTC\n") roundRobin fair_roundRobin

end Program

end MatchingEngine
