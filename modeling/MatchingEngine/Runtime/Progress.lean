import Mathlib.Data.Prod.Lex
import MatchingEngine.Runtime.Pipeline

/-!
# The pipeline does not get stuck

An agent waits for the next one down the line to make room, or for the one up the line to send. As
long as nobody has asked to stop, the shutdown is the last event on either queue, and it is on its
way to the writer until the writer has handled it (`Undisturbed`). So where the writer waits the
matcher can push, or waits itself with the shutdown still to come; and then so can the reader.

A step that is not a failed attempt brings the whole pipeline closer to its end: the reader has fewer
lines to read, or fewer events are left to the matcher, or it has fewer to send for the event at
hand, or fewer are left to the writer (`rank`).
-/

namespace MatchingEngine

open Channel

/-! ### Steps that succeed -/

namespace PushLoop

variable {α : Type} {loop loop' : PushLoop α} {stop : Bool} {capacity : Nat} {queue queue' : List α}

/-- The next step of the loop is not a push that fails. -/
def Succeeds (capacity : Nat) (queue : List α) : PushLoop α → Prop
  | .test _ => True
  | .attempt _ => queue.length < capacity

/-- The steps that the loop has still to make. -/
def work : PushLoop α → Nat
  | .test _ => 2
  | .attempt _ => 1

theorem work_pos (loop : PushLoop α) : 0 < loop.work := by
  cases loop with
  | test event => exact Nat.two_pos
  | attempt event => exact Nat.one_pos

theorem succeeds_of_lt (h : queue.length < capacity) (loop : PushLoop α) :
    loop.Succeeds capacity queue := by
  cases loop with
  | test event => trivial
  | attempt event => exact h

/-- A loop that goes on after a step that succeeds has fewer steps to make. -/
theorem work_lt_of_some (h : loop.Succeeds capacity queue)
    (hstep : loop.step stop capacity queue = (some loop', queue')) : loop'.work < loop.work := by
  cases loop with
  | test event =>
    cases stop with
    | true => simp [PushLoop.step] at hstep
    | false =>
      obtain rfl : PushLoop.attempt event = loop' := by
        simpa [PushLoop.step] using congrArg Prod.fst hstep
      exact Nat.lt_succ_self 1
  | attempt event =>
    rw [PushLoop.step, if_pos (show queue.length < capacity from h)] at hstep
    cases hstep

end PushLoop

namespace Pipeline

variable {capacities : Capacities} {s : Pipeline}

/-- The agent has not exited, and its next step is neither a push nor a pop that fails. -/
def Succeeds (capacities : Capacities) (s : Pipeline) : Mover → Prop
  | .reader =>
    match s.reader with
    | .reading _ => True
    | .pushing loop _ => loop.Succeeds capacities.order s.orderQueue
    | .done => False
  | .matcher =>
    match s.matcher with
    | .testing => True
    | .popping => s.orderQueue ≠ []
    | .pushing loop _ _ => loop.Succeeds capacities.output s.outputQueue
    | .done | .faulted _ => False
  | .writer =>
    match s.writer with
    | .testing => True
    | .popping => s.outputQueue ≠ []
    | .stopped | .finished => False
  | .requestStop => False

/-- The agent has not exited, and neither its next step fails nor, where that is a test of the flag,
the push or the pop behind it. -/
def Ready (capacities : Capacities) (s : Pipeline) : Mover → Prop
  | .reader =>
    match s.reader with
    | .reading _ => True
    | .pushing _ _ => s.orderQueue.length < capacities.order
    | .done => False
  | .matcher =>
    match s.matcher with
    | .testing | .popping => s.orderQueue ≠ []
    | .pushing _ _ _ => s.outputQueue.length < capacities.output
    | .done | .faulted _ => False
  | .writer =>
    match s.writer with
    | .testing | .popping => s.outputQueue ≠ []
    | .stopped | .finished => False
  | .requestStop => False

/-- Each of the three agents has exited. -/
def Exited (s : Pipeline) : Prop :=
  s.reader = .done ∧ s.matcher = .done ∧ (s.writer = .stopped ∨ s.writer = .finished)

theorem Ready.succeeds {mover : Mover} (h : s.Ready capacities mover) :
    s.Succeeds capacities mover := by
  obtain ⟨reader, matcher, writer, book, orderQueue, outputQueue, stop⟩ := s
  cases mover with
  | reader =>
    cases reader with
    | pushing loop lines => exact loop.succeeds_of_lt h
    | _ => exact h
  | matcher =>
    cases matcher with
    | testing => trivial
    | pushing loop rest exits => exact loop.succeeds_of_lt h
    | _ => exact h
  | writer =>
    cases writer with
    | testing => trivial
    | _ => exact h
  | requestStop => exact h

end Pipeline

/-! ### The rank -/

namespace Reader

/-- The steps left behind a push: at most three for a line, and three for the shutdown. -/
def workBehind : Option (List Bytes) → Nat
  | some lines => 3 * lines.length + 3
  | none => 0

def work : Reader → Nat
  | .reading lines => 3 * lines.length + 3
  | .pushing loop lines => loop.work + workBehind lines
  | .done => 0

theorem work_resumeReader (lines : Option (List Bytes)) :
    (Pipeline.resumeReader lines).work = workBehind lines := by
  cases lines <;> rfl

end Reader

namespace Matcher

/-- The matcher has still to look at the flag before it pops. -/
def waits : Matcher → Nat
  | .testing | .pushing _ _ _ => 1
  | _ => 0

/-- The steps left for the event at hand. -/
def work : Matcher → Nat
  | .pushing loop rest _ => loop.work + 2 * rest.length
  | _ => 0

theorem waits_resumeMatcher_le (exits : Bool) (rest : List OutputEvent) :
    (Pipeline.resumeMatcher exits rest).waits ≤ 1 := by
  apply resumeMatcher_cases (P := fun matcher => matcher.waits ≤ 1)
  · exact fun _ _ => Nat.le_refl 1
  · exact fun _ => Nat.zero_le 1
  · exact fun _ => Nat.le_refl 1

theorem work_resumeMatcher (exits : Bool) (rest : List OutputEvent) :
    (Pipeline.resumeMatcher exits rest).work = 2 * rest.length := by
  cases rest with
  | nil => cases exits <;> rfl
  | cons event rest =>
    change 2 + 2 * rest.length = 2 * (rest.length + 1)
    omega

end Matcher

def Writer.waits : Writer → Nat
  | .testing => 1
  | _ => 0

namespace Pipeline

/-- What is left for the reader, for the matcher to pop, for the matcher to push, and for the writer. -/
def rank (s : Pipeline) : ℕ ×ₗ ℕ ×ₗ ℕ ×ₗ ℕ :=
  toLex (s.reader.work, toLex (2 * s.orderQueue.length + s.matcher.waits,
    toLex (s.matcher.work, 2 * s.outputQueue.length + s.writer.waits)))

variable {capacities : Capacities} {s s' : Pipeline}

theorem rank_lt_of_reader (h : s'.reader.work < s.reader.work) : s'.rank < s.rank :=
  Prod.Lex.toLex_lt_toLex.mpr (Or.inl h)

theorem rank_lt_of_orders {book : Clob} {matcher : Matcher} {orderQueue : List InputEvent}
    (h : 2 * orderQueue.length + matcher.waits < 2 * s.orderQueue.length + s.matcher.waits) :
    rank { s with matcher, book, orderQueue } < s.rank := by
  simp only [rank, Prod.Lex.toLex_lt_toLex, true_and]
  exact Or.inr (Or.inl h)

theorem rank_lt_of_matcher {matcher : Matcher} {outputQueue : List OutputEvent}
    (hwaits : matcher.waits ≤ s.matcher.waits) (h : matcher.work < s.matcher.work) :
    rank { s with matcher, outputQueue } < s.rank := by
  simp only [rank, Prod.Lex.toLex_lt_toLex, true_and]
  rcases Nat.lt_or_eq_of_le hwaits with hlt | heq
  · exact Or.inr (Or.inl (Nat.add_lt_add_left hlt _))
  · exact Or.inr (Or.inr ⟨congrArg (2 * s.orderQueue.length + ·) heq, Or.inl h⟩)

theorem rank_lt_of_writer {writer : Writer} {outputQueue : List OutputEvent}
    (h : 2 * outputQueue.length + writer.waits < 2 * s.outputQueue.length + s.writer.waits) :
    rank { s with writer, outputQueue } < s.rank := by
  simp only [rank, Prod.Lex.toLex_lt_toLex, true_and]
  exact Or.inr (Or.inr (Or.inr h))

theorem rank_readerStep_lt (h : s.Succeeds capacities .reader) {r : Pipeline × List StreamWrite}
    (hstep : ReaderStep capacities s r) : r.1.rank < s.rank := by
  simp only [Succeeds] at h
  apply rank_lt_of_reader
  cases hstep with
  | idle hreader =>
    rw [hreader] at h
    exact h.elim
  | finish hreader =>
    rw [hreader]
    exact Nat.lt_succ_self 2
  | accept hreader hline =>
    simp only [hreader, Reader.work, Reader.workBehind, PushLoop.work, List.length_cons]
    omega
  | skip hreader hline =>
    simp only [hreader, Reader.work, List.length_cons]
    omega
  | report hreader hline =>
    simp only [hreader, Reader.work, List.length_cons]
    omega
  | again hreader hloop =>
    rw [hreader] at h ⊢
    exact Nat.add_lt_add_right (PushLoop.work_lt_of_some h hloop) _
  | resume hreader hloop =>
    rw [hreader, Reader.work_resumeReader]
    exact Nat.lt_add_of_pos_left (PushLoop.work_pos _)

theorem rank_matcherStep_lt (h : s.Succeeds capacities .matcher) {r : Pipeline × List StreamWrite}
    (hstep : MatcherStep capacities s r) : r.1.rank < s.rank := by
  simp only [Succeeds] at h
  cases hstep with
  | idle hmatcher =>
    obtain hmatcher | ⟨fault, hmatcher⟩ := hmatcher
    · rw [hmatcher] at h
      exact h.elim
    · rw [hmatcher] at h
      exact h.elim
  | stopped hmatcher =>
    apply rank_lt_of_orders
    rw [hmatcher]
    exact Nat.lt_succ_self _
  | go hmatcher =>
    apply rank_lt_of_orders
    rw [hmatcher]
    exact Nat.lt_succ_self _
  | empty hmatcher hqueue =>
    rw [hmatcher] at h
    exact absurd hqueue h
  | @take event orderQueue hmatcher hqueue =>
    obtain ⟨book, matcher, hhandle, hmatcher'⟩ := handle_eq s event orderQueue
    have hwaits : matcher.waits ≤ 1 := by
      rcases hmatcher' with ⟨exits, rest, rfl⟩ | ⟨fault, rfl⟩
      · exact Matcher.waits_resumeMatcher_le exits rest
      · exact Nat.zero_le 1
    rw [hhandle]
    apply rank_lt_of_orders
    rw [hqueue, List.length_cons]
    omega
  | again hmatcher hloop =>
    rw [hmatcher] at h
    apply rank_lt_of_matcher
    · rw [hmatcher]
      exact Nat.le_refl _
    · rw [hmatcher]
      exact Nat.add_lt_add_right (PushLoop.work_lt_of_some h hloop) _
  | resume hmatcher hloop =>
    apply rank_lt_of_matcher
    · rw [hmatcher]
      exact Matcher.waits_resumeMatcher_le _ _
    · rw [hmatcher, Matcher.work_resumeMatcher]
      exact Nat.lt_add_of_pos_left (PushLoop.work_pos _)

theorem rank_writerStep_lt (h : s.Succeeds capacities .writer) {r : Pipeline × List StreamWrite}
    (hstep : WriterStep s r) : r.1.rank < s.rank := by
  simp only [Succeeds] at h
  cases hstep with
  | idle hwriter =>
    obtain hwriter | hwriter := hwriter
    · rw [hwriter] at h
      exact h.elim
    · rw [hwriter] at h
      exact h.elim
  | stopped hwriter =>
    apply rank_lt_of_writer
    rw [hwriter]
    exact Nat.lt_succ_self _
  | go hwriter =>
    apply rank_lt_of_writer
    rw [hwriter]
    exact Nat.lt_succ_self _
  | empty hwriter hqueue =>
    rw [hwriter] at h
    exact absurd hqueue h
  | finish hwriter hqueue =>
    apply rank_lt_of_writer
    simp only [hqueue, hwriter, List.length_cons, Writer.waits]
    omega
  | write hwriter hqueue =>
    apply rank_lt_of_writer
    simp only [hqueue, hwriter, List.length_cons, Writer.waits]
    omega

/-- **A step that succeeds brings the end closer.** -/
theorem rank_step_lt {mover : Mover} (h : s.Succeeds capacities mover) :
    (s.step capacities mover).1.rank < s.rank := by
  cases mover with
  | reader => exact rank_readerStep_lt h (readerStep_spec capacities s)
  | matcher => exact rank_matcherStep_lt h (matcherStep_spec capacities s)
  | writer => exact rank_writerStep_lt h (writerStep_spec s)
  | requestStop => exact h.elim

end Pipeline

/-! ### Runs without a stop -/

/-- Nobody has asked to stop, so the agents end by the shutdown. Once the matcher has taken it, it is
ahead of the writer until the writer has handled it. -/
structure Undisturbed (s : Pipeline) : Prop where
  stop : s.stop = false
  writer : s.writer ≠ .stopped
  matcher : ∀ fault, s.matcher ≠ .faulted fault
  ahead : s.matcher.Exiting → s.writer = .finished ∨ .shutdown ∈ s.outputQueue ++ s.matcher.pending

namespace Undisturbed

variable {capacities : Capacities} {s : Pipeline}

theorem initial (input : Bytes) : Undisturbed (Pipeline.initial input) where
  stop := rfl
  writer := Writer.noConfusion
  matcher _ := Matcher.noConfusion
  ahead hexiting := hexiting.elim

theorem with_reader (h : Undisturbed s) (reader : Reader) (orderQueue : List InputEvent) :
    Undisturbed { s with reader, orderQueue } :=
  ⟨h.stop, h.writer, h.matcher, h.ahead⟩

theorem with_matcher (h : Undisturbed s) (matcher : Matcher) (hmatcher : ∀ fault, matcher ≠ .faulted fault)
    (hnot : ¬ matcher.Exiting) (book : Clob) (orderQueue : List InputEvent) :
    Undisturbed { s with matcher, book, orderQueue } :=
  ⟨h.stop, h.writer, hmatcher, fun hexiting => absurd hexiting hnot⟩

theorem with_outputQueue (h : Undisturbed s) {matcher : Matcher} {outputQueue : List OutputEvent}
    (hmatcher : ∀ fault, matcher ≠ .faulted fault) (hexits : matcher.Exiting → s.matcher.Exiting)
    (hsame : outputQueue ++ matcher.pending = s.outputQueue ++ s.matcher.pending) :
    Undisturbed { s with matcher, outputQueue } := by
  refine ⟨h.stop, h.writer, hmatcher, ?_⟩
  intro hexiting
  change s.writer = .finished ∨ .shutdown ∈ outputQueue ++ matcher.pending
  rw [hsame]
  exact h.ahead (hexits hexiting)

theorem readerStep (h : Undisturbed s) {r : Pipeline × List StreamWrite}
    (hstep : Pipeline.ReaderStep capacities s r) : Undisturbed r.1 := by
  cases hstep with
  | idle => exact h
  | finish => exact h.with_reader _ _
  | accept => exact h.with_reader _ _
  | skip => exact h.with_reader _ _
  | report => exact h.with_reader _ _
  | again => exact h.with_reader _ _
  | resume => exact h.with_reader _ _

theorem resumeMatcher_ne_faulted (exits : Bool) (rest : List OutputEvent) (fault : Fault) :
    Pipeline.resumeMatcher exits rest ≠ .faulted fault := by
  apply Matcher.resumeMatcher_cases (P := (· ≠ .faulted fault))
  · exact fun _ _ => Matcher.noConfusion
  · exact fun _ => Matcher.noConfusion
  · exact fun _ => Matcher.noConfusion

theorem not_exiting_resumeMatcher (rest : List OutputEvent) :
    ¬ (Pipeline.resumeMatcher false rest).Exiting := by
  rw [Matcher.exiting_resumeMatcher_iff]
  exact Bool.false_ne_true

theorem matcherStep (h : Undisturbed s)
    (hinput : ∀ event orderQueue, s.orderQueue = event :: orderQueue →
      ∃ r, s.book.onInput .int64 event = .ok r)
    {r : Pipeline × List StreamWrite} (hstep : Pipeline.MatcherStep capacities s r) :
    Undisturbed r.1 := by
  cases hstep with
  | idle => exact h
  | stopped _ hstop => exact absurd hstop (by rw [h.stop]; exact Bool.false_ne_true)
  | go => exact h.with_matcher .popping (fun _ => Matcher.noConfusion) not_false _ _
  | empty => exact h.with_matcher .testing (fun _ => Matcher.noConfusion) not_false _ _
  | @take event orderQueue hmatcher hqueue =>
    obtain ⟨r, hr⟩ := hinput event orderQueue hqueue
    cases event with
    | shutdown =>
      change Undisturbed { s with orderQueue, matcher := .pushing (.test .shutdown) [] true }
      refine ⟨h.stop, h.writer, fun _ => Matcher.noConfusion, fun _ => Or.inr ?_⟩
      exact List.mem_append_right _ (List.mem_singleton.mpr rfl)
    | addOrder event =>
      simp only [Pipeline.handle, hr]
      exact h.with_matcher _ (resumeMatcher_ne_faulted _ _) (not_exiting_resumeMatcher _) _ _
    | cancelOrder event =>
      simp only [Pipeline.handle, hr]
      exact h.with_matcher _ (resumeMatcher_ne_faulted _ _) (not_exiting_resumeMatcher _) _ _
  | again hmatcher hloop =>
    rw [h.stop] at hloop
    obtain ⟨hevent, hqueue⟩ := PushLoop.eq_of_some hloop
    apply h.with_outputQueue fun _ => Matcher.noConfusion
    · rw [hmatcher]
      exact id
    · rw [hmatcher, hqueue, Matcher.pending, Matcher.pending, hevent]
  | resume hmatcher hloop =>
    rw [h.stop] at hloop
    apply h.with_outputQueue (resumeMatcher_ne_faulted _ _)
    · rw [hmatcher]
      exact Matcher.exiting_resumeMatcher_iff.mp
    · rw [hmatcher, PushLoop.eq_of_none hloop, Matcher.pending_resumeMatcher, Matcher.pending,
        List.append_assoc, List.singleton_append]

/-- Until the writer has handled the shutdown it is in the output queue or with the matcher. -/
theorem ahead_of_ne_finished (h : Undisturbed s) (hwriter : s.writer ≠ .finished)
    (hexiting : s.matcher.Exiting) : .shutdown ∈ s.outputQueue ++ s.matcher.pending :=
  (h.ahead hexiting).resolve_left hwriter

theorem writerStep (h : Undisturbed s) {r : Pipeline × List StreamWrite}
    (hstep : Pipeline.WriterStep s r) : Undisturbed r.1 := by
  cases hstep with
  | idle => exact h
  | stopped _ hstop => exact absurd hstop (by rw [h.stop]; exact Bool.false_ne_true)
  | go hwriter =>
    have hahead := h.ahead_of_ne_finished (by rw [hwriter]; exact Writer.noConfusion)
    exact ⟨h.stop, Writer.noConfusion, h.matcher, fun hexiting => Or.inr (hahead hexiting)⟩
  | empty hwriter =>
    have hahead := h.ahead_of_ne_finished (by rw [hwriter]; exact Writer.noConfusion)
    exact ⟨h.stop, Writer.noConfusion, h.matcher, fun hexiting => Or.inr (hahead hexiting)⟩
  | finish => exact ⟨h.stop, Writer.noConfusion, h.matcher, fun _ => Or.inl rfl⟩
  | write hwriter hqueue hevent =>
    have hahead := h.ahead_of_ne_finished (by rw [hwriter]; exact Writer.noConfusion)
    rw [hqueue, List.cons_append] at hahead
    refine ⟨h.stop, Writer.noConfusion, h.matcher, fun hexiting => Or.inr ?_⟩
    exact (List.mem_cons.mp (hahead hexiting)).resolve_left fun heq => hevent heq.symm

theorem step {input : Bytes} {writes : List StreamWrite} {taken : List InputEvent}
    {emitted handled : List OutputEvent} (h : Undisturbed s)
    (hflow : Flow input s writes taken emitted handled) {mover : Mover} (hmover : .requestStop ≠ mover) :
    Undisturbed (s.step capacities mover).1 := by
  cases mover with
  | reader => exact h.readerStep (Pipeline.readerStep_spec capacities s)
  | matcher =>
    exact h.matcherStep (fun _ _ => hflow.onInput_ok) (Pipeline.matcherStep_spec capacities s)
  | writer => exact h.writerStep (Pipeline.writerStep_spec s)
  | requestStop => exact absurd rfl hmover

end Undisturbed

theorem run_undisturbed (capacities : Capacities) (input : Bytes) {schedule : List Mover}
    (hstop : .requestStop ∉ schedule) :
    Undisturbed (Pipeline.run capacities input schedule).1 := by
  induction schedule using List.reverseRecOn with
  | nil => exact Undisturbed.initial input
  | append_singleton schedule mover ih =>
    rw [List.mem_append, List.mem_singleton, not_or] at hstop
    obtain ⟨taken, emitted, handled, hflow⟩ := run_flow capacities input schedule
    rw [Pipeline.run, Interleaving.run_concat]
    exact (ih hstop.1).step hflow hstop.2

/-! ### No agent waits for good -/

namespace Flow

variable {input : Bytes} {s : Pipeline} {writes : List StreamWrite} {taken : List InputEvent}
  {emitted handled : List OutputEvent}

/-- A matcher that has taken the shutdown has taken all that the reader had to send. -/
theorem all_taken (h : Flow input s writes taken emitted handled) (hstop : s.stop = false)
    (hmem : .shutdown ∈ taken) : s.orderQueue = [] ∧ s.reader.pending = [] := by
  have horders := h.orders.eq_of_not_stopped (by rw [hstop]; exact Bool.false_ne_true)
  rw [List.append_assoc] at horders
  have hnot : .shutdown ∉ (parseStream input).1 := fun hin => (fits_of_mem_parseLines _ hin).2 rfl
  exact List.append_eq_nil_iff.mp (eq_nil_of_mem_of_append_eq_concat horders hmem hnot)

/-- A writer that has handled the shutdown has handled all that the matcher had to send, and the
matcher has taken it. -/
theorem all_handled (h : Flow input s writes taken emitted handled) (hstop : s.stop = false)
    (hmem : .shutdown ∈ handled) :
    s.outputQueue = [] ∧ s.matcher.pending = [] ∧ .shutdown ∈ taken := by
  have houtputs := h.outputs.eq_of_not_stopped (by rw [hstop]; exact Bool.false_ne_true)
  have hnot : .shutdown ∉ emitted :=
    shutdown_not_mem_run (fits_of_isPrefix ((List.prefix_append ..).trans h.taken_isPrefix)) h.run_eq
  have htaken : .shutdown ∈ taken := by
    by_contra hnone
    rw [sentinel, if_neg hnone, List.append_nil] at houtputs
    apply hnot
    rw [← houtputs]
    exact List.mem_append_left _ (List.mem_append_left _ hmem)
  rw [sentinel, if_pos htaken, List.append_assoc] at houtputs
  obtain ⟨hqueue, hpending⟩ :=
    List.append_eq_nil_iff.mp (eq_nil_of_mem_of_append_eq_concat houtputs hmem hnot)
  exact ⟨hqueue, hpending, htaken⟩

/-- Once the writer has handled the shutdown all are done, and nothing is on its way. -/
theorem exited_of_finished (h : Flow input s writes taken emitted handled) (hstop : s.stop = false)
    (hfinished : s.writer = .finished) : s.Exited ∧ s.orderQueue = [] ∧ s.outputQueue = [] := by
  obtain ⟨houtput, hpending, htaken⟩ := h.all_handled hstop (h.finished hfinished)
  obtain ⟨horder, hreader⟩ := h.all_taken hstop htaken
  have hexiting := h.exits htaken
  refine ⟨⟨?_, ?_, Or.inr hfinished⟩, horder, houtput⟩
  · cases hs : s.reader with
    | reading lines => simp [hs, Reader.pending] at hreader
    | pushing loop lines => simp [hs] at hreader
    | done => rfl
  · cases hs : s.matcher with
    | pushing loop rest exits => simp [hs, Matcher.pending] at hpending
    | done => rfl
    | testing => simp [hs, Matcher.Exiting] at hexiting
    | popping => simp [hs, Matcher.Exiting] at hexiting
    | faulted fault => simp [hs, Matcher.Exiting] at hexiting

/-- Where the writer waits the matcher can go on; or the matcher waits, and the reader can. -/
theorem exists_ready (h : Flow input s writes taken emitted handled) (hs : Undisturbed s)
    {capacities : Capacities} (horder : 0 < capacities.order) (houtput : 0 < capacities.output)
    (hfinished : s.writer ≠ .finished) : ∃ mover, s.Ready capacities mover := by
  by_cases hqueue : s.outputQueue = []
  swap
  · refine ⟨.writer, ?_⟩
    simp only [Pipeline.Ready]
    cases hwriter : s.writer with
    | testing => exact hqueue
    | popping => exact hqueue
    | stopped => exact absurd hwriter hs.writer
    | finished => exact absurd hwriter hfinished
  -- the writer has nothing to handle, so the shutdown is not out of the matcher's hands
  have hahead : s.matcher.Exiting → .shutdown ∈ s.matcher.pending := by
    intro hexiting
    have hmem := hs.ahead_of_ne_finished hfinished hexiting
    rwa [hqueue] at hmem
  have hmatcher : ¬ s.matcher.Exiting → s.orderQueue = [] → ∃ mover, s.Ready capacities mover := by
    intro hnot hempty
    refine ⟨.reader, ?_⟩
    simp only [Pipeline.Ready]
    cases hreader : s.reader with
    | reading lines => trivial
    | pushing loop lines => simpa [hempty] using horder
    | done =>
      -- the reader has sent the shutdown, and the matcher would be on its way out
      have horders := h.orders.eq_of_not_stopped (by rw [hs.stop]; exact Bool.false_ne_true)
      rw [hempty, hreader, Reader.pending, List.append_nil, List.append_nil] at horders
      apply hnot
      apply h.exits
      rw [horders]
      exact List.mem_append_right _ (List.mem_singleton.mpr rfl)
  cases hs' : s.matcher with
  | pushing loop rest exits =>
    refine ⟨.matcher, ?_⟩
    simpa only [Pipeline.Ready, hs', hqueue, List.length_nil] using houtput
  | done =>
    rw [hs'] at hahead
    exact absurd (hahead trivial) List.not_mem_nil
  | faulted fault => exact absurd hs' (hs.matcher fault)
  | testing =>
    by_cases hempty : s.orderQueue = []
    · exact hmatcher (by rw [hs']; exact not_false) hempty
    · exact ⟨.matcher, by simpa only [Pipeline.Ready, hs'] using hempty⟩
  | popping =>
    by_cases hempty : s.orderQueue = []
    · exact hmatcher (by rw [hs']; exact not_false) hempty
    · exact ⟨.matcher, by simpa only [Pipeline.Ready, hs'] using hempty⟩

end Flow

/-- **The pipeline cannot get stuck.** With room for one event in each queue, and without a stop: as
long as an agent has not exited, some agent can go on; there is no endless run of steps that succeed;
and once all have exited, both queues are empty. -/
theorem pipeline_progress (capacities : Capacities) (horder : 0 < capacities.order)
    (houtput : 0 < capacities.output) (input : Bytes) (schedule : List Mover)
    (hstop : .requestStop ∉ schedule) :
    (¬ (Pipeline.run capacities input schedule).1.Exited →
        ∃ mover, (Pipeline.run capacities input schedule).1.Ready capacities mover ∧
          (Pipeline.run capacities input schedule).1.Succeeds capacities mover) ∧
      ¬ Interleaving.Endless (Pipeline.step capacities) (Pipeline.Succeeds capacities)
        (Pipeline.run capacities input schedule).1 ∧
      ((Pipeline.run capacities input schedule).1.Exited →
        (Pipeline.run capacities input schedule).1.orderQueue = [] ∧
          (Pipeline.run capacities input schedule).1.outputQueue = []) := by
  obtain ⟨taken, emitted, handled, hflow⟩ := run_flow capacities input schedule
  have hs := run_undisturbed capacities input hstop
  refine ⟨?_, ?_, ?_⟩
  · intro hnot
    have hfinished : (Pipeline.run capacities input schedule).1.writer ≠ .finished := fun hfinished =>
      hnot (hflow.exited_of_finished hs.stop hfinished).1
    obtain ⟨mover, hready⟩ := hflow.exists_ready hs horder houtput hfinished
    exact ⟨mover, hready, hready.succeeds⟩
  · exact Interleaving.not_endless _ Pipeline.rank (fun _ _ => Pipeline.rank_step_lt) _
  · intro hexited
    obtain ⟨-, -, hwriter⟩ := hexited
    exact (hflow.exited_of_finished hs.stop (hwriter.resolve_left hs.writer)).2

theorem pipeline_progress_start :
    ∃ mover, (Pipeline.run ⟨1, 1⟩ (ascii "CXL,1") [.writer, .matcher]).1.Ready ⟨1, 1⟩ mover ∧
      (Pipeline.run ⟨1, 1⟩ (ascii "CXL,1") [.writer, .matcher]).1.Succeeds ⟨1, 1⟩ mover :=
  (pipeline_progress ⟨1, 1⟩ Nat.one_pos Nat.one_pos (ascii "CXL,1") [.writer, .matcher]
    (by decide)).1 fun hexited => Reader.noConfusion hexited.1

end MatchingEngine
