import MatchingEngine.Lib.Fairness
import MatchingEngine.Runtime.Abort
import MatchingEngine.Runtime.Progress

/-!
# Every fair schedule ends the pipeline

With or without a stop. A failed attempt on a queue is not progress, and neither is a test of the flag, so
they do not count in what is outstanding; and nobody but an agent itself can take from it the room or the
event that it is after. An agent that has it in reach therefore keeps it there until it moves, and a
second move brings down what is outstanding.
-/

namespace MatchingEngine

namespace PushLoop

variable {α : Type} {loop loop' : PushLoop α} {stop : Bool} {capacity : Nat} {queue queue' : List α}

/-- The moves to the push, or to the test that sees the flag. -/
def pace (stop : Bool) : PushLoop α → Nat
  | .test _ => if stop then 1 else 2
  | .attempt _ => if stop then 2 else 1

/-- A loop that goes on has left the queue alone. -/
theorem queue_eq_of_some (hstep : loop.step stop capacity queue = (some loop', queue')) :
    queue' = queue := by
  cases loop with
  | test event => exact (Prod.mk.inj hstep).2.symm
  | attempt event =>
    rw [PushLoop.step] at hstep
    split at hstep
    · cases hstep
    · exact (Prod.mk.inj hstep).2.symm

theorem pace_lt_of_some (h : stop = true ∨ queue.length < capacity)
    (hstep : loop.step stop capacity queue = (some loop', queue')) : loop'.pace stop < loop.pace stop := by
  cases loop with
  | test event =>
    cases stop with
    | true => simp [PushLoop.step] at hstep
    | false =>
      obtain rfl : PushLoop.attempt event = loop' := by
        simpa [PushLoop.step] using congrArg Prod.fst hstep
      exact Nat.lt_succ_self 1
  | attempt event =>
    rw [PushLoop.step] at hstep
    split at hstep
    · cases hstep
    · next hfull =>
      obtain rfl := h.resolve_right hfull
      obtain rfl : PushLoop.test event = loop' := Option.some.inj (Prod.mk.inj hstep).1
      exact Nat.lt_succ_self 1

end PushLoop

/-! ### What is outstanding -/

namespace Reader

def outstandingBehind : Option (List Bytes) → Nat
  | some lines => 2 * lines.length + 2
  | none => 0

/-- Two for each line, to read it and to push it, and two for the shutdown. -/
def outstanding : Reader → Nat
  | .reading lines => 2 * lines.length + 2
  | .pushing _ lines => 1 + outstandingBehind lines
  | .done => 0

theorem outstanding_resumeReader (lines : Option (List Bytes)) :
    (Pipeline.resumeReader lines).outstanding = outstandingBehind lines := by
  cases lines <;> rfl

end Reader

namespace Matcher

def running : Matcher → Nat
  | .done | .faulted _ => 0
  | _ => 1

/-- The events still to be pushed for the event at hand. -/
def outstanding : Matcher → Nat
  | .pushing _ rest _ => 1 + rest.length
  | _ => 0

theorem running_resumeMatcher_le (exits : Bool) (rest : List OutputEvent) :
    (Pipeline.resumeMatcher exits rest).running ≤ 1 := by
  apply resumeMatcher_cases (P := fun matcher => matcher.running ≤ 1)
  · exact fun _ _ => Nat.le_refl 1
  · exact fun _ => Nat.zero_le 1
  · exact fun _ => Nat.le_refl 1

theorem outstanding_resumeMatcher (exits : Bool) (rest : List OutputEvent) :
    (Pipeline.resumeMatcher exits rest).outstanding = rest.length := by
  cases rest with
  | nil => cases exits <;> rfl
  | cons event rest => exact Nat.add_comm 1 rest.length

end Matcher

def Writer.running : Writer → Nat
  | .testing | .popping => 1
  | .stopped | .finished => 0

namespace Pipeline

open Interleaving (Approaches)

variable {capacities : Capacities} {s : Pipeline} {r : Pipeline × List StreamWrite}

/-- The stop, if it is still to come; then what is left for the reader, for the matcher to take, for the
matcher to push, and for the writer. -/
def outstanding (s : Pipeline) : ℕ ×ₗ ℕ ×ₗ ℕ ×ₗ ℕ ×ₗ ℕ :=
  toLex (if s.stop then 0 else 1, toLex (s.reader.outstanding,
    toLex (s.orderQueue.length + s.matcher.running,
      toLex (s.matcher.outstanding, s.outputQueue.length + s.writer.running))))

/-- The agent has returned from its loop. -/
def Returned (s : Pipeline) : Mover → Prop
  | .reader => s.reader = .done
  | .matcher => s.matcher = .done
  | .writer => s.writer = .stopped ∨ s.writer = .finished
  | .requestStop => True

/-- The agent has not returned, and what it is after is in reach, or the flag is up. -/
def Helps (capacities : Capacities) (s : Pipeline) (mover : Mover) : Prop :=
  ¬ s.Returned mover ∧ (s.stop = true ∨ s.Ready capacities mover)

/-- The moves that an agent makes until it brings down what is outstanding. -/
def pace (s : Pipeline) : Mover → Nat
  | .reader =>
    match s.reader with
    | .pushing loop _ => loop.pace s.stop
    | _ => 0
  | .matcher =>
    match s.matcher with
    | .testing => if s.stop then 1 else 2
    | .popping => if s.stop then 2 else 1
    | .pushing loop _ _ => loop.pace s.stop
    | _ => 0
  | .writer =>
    match s.writer with
    | .testing => if s.stop then 1 else 2
    | .popping => if s.stop then 2 else 1
    | _ => 0
  | .requestStop => 0

theorem outstanding_lt_of_stop (hstop : s.stop = false) :
    outstanding { s with stop := true } < s.outstanding := by
  apply Prod.Lex.toLex_lt_toLex.mpr
  rw [hstop]
  exact Or.inl Nat.one_pos

theorem outstanding_lt_of_reader {reader : Reader} {orderQueue : List InputEvent}
    (h : reader.outstanding < s.reader.outstanding) :
    outstanding { s with reader, orderQueue } < s.outstanding := by
  simp only [outstanding, Prod.Lex.toLex_lt_toLex, true_and]
  exact Or.inr (Or.inl h)

theorem outstanding_lt_of_orders {book : Clob} {matcher : Matcher} {orderQueue : List InputEvent}
    (h : orderQueue.length + matcher.running < s.orderQueue.length + s.matcher.running) :
    outstanding { s with matcher, book, orderQueue } < s.outstanding := by
  simp only [outstanding, Prod.Lex.toLex_lt_toLex, true_and]
  exact Or.inr (Or.inr (Or.inl h))

theorem outstanding_lt_of_matcher {matcher : Matcher} {outputQueue : List OutputEvent}
    (hrunning : matcher.running ≤ s.matcher.running) (h : matcher.outstanding < s.matcher.outstanding) :
    outstanding { s with matcher, outputQueue } < s.outstanding := by
  simp only [outstanding, Prod.Lex.toLex_lt_toLex, true_and]
  rcases Nat.lt_or_eq_of_le hrunning with hlt | heq
  · exact Or.inr (Or.inr (Or.inl (Nat.add_lt_add_left hlt _)))
  · exact Or.inr (Or.inr (Or.inr ⟨congrArg (s.orderQueue.length + ·) heq, Or.inl h⟩))

theorem outstanding_lt_of_writer {writer : Writer} {outputQueue : List OutputEvent}
    (h : outputQueue.length + writer.running < s.outputQueue.length + s.writer.running) :
    outstanding { s with writer, outputQueue } < s.outstanding := by
  simp only [outstanding, Prod.Lex.toLex_lt_toLex, true_and]
  exact Or.inr (Or.inr (Or.inr (Or.inr h)))

/-! ### What a move does -/

theorem approaches_readerStep (hstep : ReaderStep capacities s r) :
    Approaches outstanding (Helps capacities) pace s r.1 .reader := by
  cases hstep with
  | idle hreader =>
    exact Or.inr ⟨rfl, fun _ _ => ⟨Iff.rfl, rfl⟩, fun hhelps => absurd hreader hhelps.1⟩
  | finish hreader =>
    apply Or.inl (outstanding_lt_of_reader _)
    rw [hreader]
    exact Nat.lt_succ_self 1
  | accept hreader hline =>
    apply Or.inl (outstanding_lt_of_reader _)
    simp only [hreader, Reader.outstanding, Reader.outstandingBehind, List.length_cons]
    omega
  | skip hreader hline =>
    apply Or.inl (outstanding_lt_of_reader _)
    simp only [hreader, Reader.outstanding, List.length_cons]
    omega
  | report hreader hline =>
    apply Or.inl (outstanding_lt_of_reader _)
    simp only [hreader, Reader.outstanding, List.length_cons]
    omega
  | @again loop loop' lines orderQueue hreader hloop =>
    obtain rfl := PushLoop.queue_eq_of_some hloop
    refine Or.inr ⟨?_, ?_, ?_⟩
    · simp only [outstanding, hreader, Reader.outstanding]
    · intro other hother
      cases other with
      | reader => exact absurd rfl hother
      | _ => exact ⟨Iff.rfl, rfl⟩
    · intro hhelps
      obtain ⟨-, hreach⟩ := hhelps
      simp only [Ready, hreader] at hreach
      refine ⟨⟨Reader.noConfusion, hreach⟩, ?_⟩
      simp only [pace, hreader]
      exact PushLoop.pace_lt_of_some hreach hloop
  | resume hreader hloop =>
    apply Or.inl (outstanding_lt_of_reader _)
    rw [hreader, Reader.outstanding_resumeReader]
    exact Nat.lt_add_of_pos_left Nat.one_pos

theorem approaches_matcherStep (hfault : ∀ fault, s.matcher ≠ .faulted fault)
    (hstep : MatcherStep capacities s r) :
    Approaches outstanding (Helps capacities) pace s r.1 .matcher := by
  have hothers : ∀ matcher other, other ≠ .matcher →
      (Helps capacities { s with matcher } other ↔ s.Helps capacities other) ∧
        pace { s with matcher } other = s.pace other := by
    intro matcher other hother
    cases other with
    | matcher => exact absurd rfl hother
    | _ => exact ⟨Iff.rfl, rfl⟩
  cases hstep with
  | idle hmatcher =>
    obtain hmatcher | ⟨fault, hmatcher⟩ := hmatcher
    · exact Or.inr ⟨rfl, fun _ _ => ⟨Iff.rfl, rfl⟩, fun hhelps => absurd hmatcher hhelps.1⟩
    · exact absurd hmatcher (hfault fault)
  | stopped hmatcher =>
    apply Or.inl (outstanding_lt_of_orders _)
    rw [hmatcher]
    exact Nat.lt_succ_self _
  | go hmatcher hstop =>
    refine Or.inr ⟨?_, hothers _, ?_⟩
    · simp only [outstanding, hmatcher, Matcher.running, Matcher.outstanding]
    · rintro ⟨-, hreach⟩
      simp only [Ready, hmatcher] at hreach
      refine ⟨⟨Matcher.noConfusion, hreach⟩, ?_⟩
      simp [pace, hmatcher, hstop]
  | empty hmatcher hqueue =>
    refine Or.inr ⟨?_, hothers _, ?_⟩
    · simp only [outstanding, hmatcher, Matcher.running, Matcher.outstanding]
    · rintro ⟨-, hreach⟩
      simp only [Ready, hmatcher, hqueue, ne_eq, not_true, or_false] at hreach
      refine ⟨⟨Matcher.noConfusion, Or.inl hreach⟩, ?_⟩
      simp [pace, hmatcher, hreach]
  | @take event orderQueue hmatcher hqueue =>
    obtain ⟨book, matcher, hhandle, hmatcher'⟩ := handle_eq s event orderQueue
    have hrunning : matcher.running ≤ 1 := by
      rcases hmatcher' with ⟨exits, rest, rfl⟩ | ⟨fault, rfl⟩
      · exact Matcher.running_resumeMatcher_le exits rest
      · exact Nat.zero_le 1
    rw [hhandle]
    apply Or.inl (outstanding_lt_of_orders _)
    rw [hqueue, hmatcher, List.length_cons, show Matcher.popping.running = 1 from rfl]
    omega
  | again hmatcher hloop =>
    obtain rfl := PushLoop.queue_eq_of_some hloop
    refine Or.inr ⟨?_, hothers _, ?_⟩
    · simp only [outstanding, hmatcher, Matcher.running, Matcher.outstanding]
    · rintro ⟨-, hreach⟩
      simp only [Ready, hmatcher] at hreach
      refine ⟨⟨Matcher.noConfusion, hreach⟩, ?_⟩
      simp only [pace, hmatcher]
      exact PushLoop.pace_lt_of_some hreach hloop
  | resume hmatcher hloop =>
    apply Or.inl (outstanding_lt_of_matcher _ _)
    · rw [hmatcher]
      exact Matcher.running_resumeMatcher_le _ _
    · rw [hmatcher, Matcher.outstanding_resumeMatcher]
      exact Nat.lt_add_of_pos_left Nat.one_pos

theorem approaches_writerStep (hstep : WriterStep s r) :
    Approaches outstanding (Helps capacities) pace s r.1 .writer := by
  have hothers : ∀ writer other, other ≠ .writer →
      (Helps capacities { s with writer } other ↔ s.Helps capacities other) ∧
        pace { s with writer } other = s.pace other := by
    intro writer other hother
    cases other with
    | writer => exact absurd rfl hother
    | _ => exact ⟨Iff.rfl, rfl⟩
  cases hstep with
  | idle hwriter =>
    exact Or.inr ⟨rfl, fun _ _ => ⟨Iff.rfl, rfl⟩, fun hhelps => absurd hwriter hhelps.1⟩
  | stopped hwriter =>
    apply Or.inl (outstanding_lt_of_writer _)
    rw [hwriter]
    exact Nat.lt_succ_self _
  | go hwriter hstop =>
    refine Or.inr ⟨?_, hothers _, ?_⟩
    · simp only [outstanding, hwriter, Writer.running]
    · rintro ⟨-, hreach⟩
      simp only [Ready, hwriter] at hreach
      refine ⟨⟨by simp [Returned], hreach⟩, ?_⟩
      simp [pace, hwriter, hstop]
  | empty hwriter hqueue =>
    refine Or.inr ⟨?_, hothers _, ?_⟩
    · simp only [outstanding, hwriter, Writer.running]
    · rintro ⟨-, hreach⟩
      simp only [Ready, hwriter, hqueue, ne_eq, not_true, or_false] at hreach
      refine ⟨⟨by simp [Returned], Or.inl hreach⟩, ?_⟩
      simp [pace, hwriter, hreach]
  | finish hwriter hqueue =>
    apply Or.inl (outstanding_lt_of_writer _)
    simp only [hqueue, hwriter, List.length_cons, Writer.running]
    omega
  | write hwriter hqueue =>
    apply Or.inl (outstanding_lt_of_writer _)
    simp only [hqueue, hwriter, List.length_cons, Writer.running]
    omega

end Pipeline

/-! ### The pipeline is live -/

/-- What holds of the pipeline under every schedule: it carries its input along, and as long as the flag
is down the agents end by the shutdown. -/
structure Live (input : Bytes) (s : Pipeline) : Prop where
  flow : ∃ writes taken emitted handled, Flow input s writes taken emitted handled
  undisturbed : s.stop = false → Undisturbed s
  matcher : ∀ fault, s.matcher ≠ .faulted fault

namespace Live

variable {input : Bytes} {capacities : Capacities} {s : Pipeline}

theorem initial (input : Bytes) : Live input (Pipeline.initial input) where
  flow := ⟨[], [], [], [], Flow.initial input⟩
  undisturbed _ := Undisturbed.initial input
  matcher _ := Matcher.noConfusion

theorem matcherStep (h : Live input s) {r : Pipeline × List StreamWrite}
    (hstep : Pipeline.MatcherStep capacities s r) (fault : Fault) : r.1.matcher ≠ .faulted fault := by
  cases hstep with
  | idle => exact h.matcher fault
  | stopped => exact Matcher.noConfusion
  | go => exact Matcher.noConfusion
  | empty => exact Matcher.noConfusion
  | @take event orderQueue hmatcher hqueue =>
    obtain ⟨writes, taken, emitted, handled, hflow⟩ := h.flow
    obtain ⟨r, hr⟩ := hflow.onInput_ok hqueue
    cases event with
    | shutdown => exact Matcher.noConfusion
    | addOrder event =>
      simp only [Pipeline.handle, hr]
      exact Undisturbed.resumeMatcher_ne_faulted _ _ fault
    | cancelOrder event =>
      simp only [Pipeline.handle, hr]
      exact Undisturbed.resumeMatcher_ne_faulted _ _ fault
  | again => exact Matcher.noConfusion
  | resume => exact Undisturbed.resumeMatcher_ne_faulted _ _ fault

theorem step (h : Live input s) (mover : Mover) : Live input (s.step capacities mover).1 := by
  obtain ⟨writes, taken, emitted, handled, hflow⟩ := h.flow
  obtain ⟨taken', emitted', handled', hflow'⟩ := hflow.step capacities mover
  refine ⟨⟨_, taken', emitted', handled', hflow'⟩, ?_, ?_⟩
  · intro hstop'
    have hstop : s.stop = false := by
      apply Bool.eq_false_of_not_eq_true
      intro hstop
      exact Bool.false_ne_true (hstop'.symm.trans (Pipeline.stop_step capacities hstop mover))
    cases mover with
    | requestStop => cases hstop'
    | _ => exact (h.undisturbed hstop).step hflow (by decide)
  · intro fault
    cases mover with
    | reader =>
      obtain ⟨reader, orderQueue, hframe⟩ := (Pipeline.readerStep_spec capacities s).frame
      rw [Pipeline.step, hframe]
      exact h.matcher fault
    | matcher => exact h.matcherStep (Pipeline.matcherStep_spec capacities s) fault
    | writer =>
      obtain ⟨⟨writer, outputQueue, hframe⟩, -⟩ := (Pipeline.writerStep_spec s).frame
      rw [Pipeline.step, hframe]
      exact h.matcher fault
    | requestStop => exact h.matcher fault

/-- As long as an agent has not returned one of them has what it is after in reach. -/
theorem exists_helps (h : Live input s) (horder : 0 < capacities.order) (houtput : 0 < capacities.output)
    (hexited : ¬ s.Exited) : ∃ mover, mover ≠ .requestStop ∧ s.Helps capacities mover := by
  by_cases hstop : s.stop = true
  · by_cases hreader : s.reader = .done
    · by_cases hmatcher : s.matcher = .done
      · exact ⟨.writer, by decide, fun hwriter => hexited ⟨hreader, hmatcher, hwriter⟩, Or.inl hstop⟩
      · exact ⟨.matcher, by decide, hmatcher, Or.inl hstop⟩
    · exact ⟨.reader, by decide, hreader, Or.inl hstop⟩
  · have hstop := Bool.eq_false_of_not_eq_true hstop
    obtain ⟨writes, taken, emitted, handled, hflow⟩ := h.flow
    have hfinished : s.writer ≠ .finished := fun hfinished =>
      hexited (hflow.exited_of_finished hstop hfinished).1
    obtain ⟨mover, hready⟩ := hflow.exists_ready (h.undisturbed hstop) horder houtput hfinished
    have hreturned : ¬ s.Returned mover := by
      intro hreturned
      cases mover with
      | reader =>
        rw [Pipeline.Returned] at hreturned
        simp only [Pipeline.Ready, hreturned] at hready
      | matcher =>
        rw [Pipeline.Returned] at hreturned
        simp only [Pipeline.Ready, hreturned] at hready
      | writer =>
        rcases hreturned with hwriter | hwriter
        · simp only [Pipeline.Ready, hwriter] at hready
        · simp only [Pipeline.Ready, hwriter] at hready
      | requestStop => exact hready
    refine ⟨mover, ?_, hreturned, Or.inr hready⟩
    rintro rfl
    exact hready

theorem approaches (h : Live input s) (mover : Mover) : Interleaving.Approaches Pipeline.outstanding
    (Pipeline.Helps capacities) Pipeline.pace s (s.step capacities mover).1 mover := by
  cases mover with
  | reader => exact Pipeline.approaches_readerStep (Pipeline.readerStep_spec capacities s)
  | matcher => exact Pipeline.approaches_matcherStep h.matcher (Pipeline.matcherStep_spec capacities s)
  | writer => exact Pipeline.approaches_writerStep (Pipeline.writerStep_spec s)
  | requestStop =>
    cases hstop : s.stop with
    | false => exact Or.inl (Pipeline.outstanding_lt_of_stop hstop)
    | true =>
      have hsame : (s.step capacities .requestStop).1 = s := by
        rw [Pipeline.step, ← hstop]
      rw [hsame]
      exact Or.inr ⟨rfl, fun _ _ => ⟨Iff.rfl, rfl⟩, fun hhelps => absurd trivial hhelps.1⟩

end Live

/-- **Where the pipeline stands some agent helps**, whoever moves. -/
theorem pipeline_helped (capacities : Capacities) (horder : 0 < capacities.order)
    (houtput : 0 < capacities.output) (input : Bytes) :
    Interleaving.Helped (Pipeline.step capacities) (· ≠ .requestStop) (fun _ => True) Pipeline.Exited
      (fun s a => s = a ∧ Live input a) Pipeline.outstanding (Pipeline.Helps capacities)
      (fun _ a mover => a.pace mover) :=
  .of_approaches (fun h hexited => h.exists_helps horder houtput hexited) (fun h mover _ => h.step mover)
    fun h mover _ => h.approaches mover

end MatchingEngine
