import MatchingEngine.Runtime.Pipeline

/-!
# Aborting the pipeline

After the flag is up the matcher and the writer take up nothing but the event of a pop that is
already due. The reader looks at the flag in its push loop only: it gives up the event at hand, and
goes on to read every line there is, diagnostics included. So an abort reaches every agent if and only
if it comes when the reader has no line left to read.
-/

namespace MatchingEngine

/-- What has been written to the error stream. -/
def errText (writes : List StreamWrite) : Bytes :=
  writes.flatMap fun
    | .out _ => []
    | .err text => text

theorem errText_append (writes more : List StreamWrite) :
    errText (writes ++ more) = errText writes ++ errText more :=
  List.flatMap_append

/-- The lines that have not been read. -/
def Reader.unread : Reader → List Bytes
  | .reading lines => lines
  | .pushing _ lines => lines.getD []
  | .done => []

theorem Reader.unread_resumeReader (lines : Option (List Bytes)) :
    (Pipeline.resumeReader lines).unread = lines.getD [] := by
  cases lines <;> rfl

theorem Matcher.resumeMatcher_ne_popping (exits : Bool) (rest : List OutputEvent) :
    Pipeline.resumeMatcher exits rest ≠ .popping := by
  apply resumeMatcher_cases (P := (· ≠ .popping))
  · exact fun _ _ => Matcher.noConfusion
  · exact fun _ => Matcher.noConfusion
  · exact fun _ => Matcher.noConfusion

namespace Pipeline

/-! ### Units of work -/

/-- The agent's next step takes up a unit of work: it reads a line, or pops an event. -/
def takesUp (s : Pipeline) : Mover → Bool
  | .reader =>
    match s.reader with
    | .reading (_ :: _) => true
    | _ => false
  | .matcher => s.matcher = .popping && !s.orderQueue.isEmpty
  | .writer => s.writer = .popping && !s.outputQueue.isEmpty
  | .requestStop => false

/-- The units of work that an agent takes up in a run from this state. -/
def unitsTaken (capacities : Capacities) (s : Pipeline) (agent : Mover) (schedule : List Mover) : Nat :=
  Interleaving.count (step capacities) (fun s mover => mover = agent && s.takesUp agent) s schedule

/-- The flag is up, and no agent takes up anything more, but for a pop that is already due; nothing
more goes to the error stream. -/
structure AbortReaches (capacities : Capacities) (s : Pipeline) : Prop where
  stop : s.stop = true
  reader : ∀ schedule, s.unitsTaken capacities .reader schedule = 0
  matcher : ∀ schedule,
    s.unitsTaken capacities .matcher schedule ≤ if s.matcher = .popping then 1 else 0
  writer : ∀ schedule, s.unitsTaken capacities .writer schedule ≤ if s.writer = .popping then 1 else 0
  silent : ∀ schedule, errText (Interleaving.run (step capacities) s schedule).2 = []

variable {capacities : Capacities} {s : Pipeline}

/-! ### What a step leaves alone -/

variable {r : Pipeline × List StreamWrite}

theorem ReaderStep.frame (h : ReaderStep capacities s r) :
    ∃ reader orderQueue, r.1 = { s with reader, orderQueue } := by
  cases h with
  | idle => exact ⟨_, _, rfl⟩
  | finish => exact ⟨_, _, rfl⟩
  | accept => exact ⟨_, _, rfl⟩
  | skip => exact ⟨_, _, rfl⟩
  | report => exact ⟨_, _, rfl⟩
  | again => exact ⟨_, _, rfl⟩
  | resume => exact ⟨_, _, rfl⟩

theorem MatcherStep.frame (h : MatcherStep capacities s r) :
    (∃ matcher book orderQueue outputQueue,
      r.1 = { s with matcher, book, orderQueue, outputQueue }) ∧ r.2 = [] := by
  cases h with
  | idle => exact ⟨⟨_, _, _, _, rfl⟩, rfl⟩
  | stopped => exact ⟨⟨_, _, _, _, rfl⟩, rfl⟩
  | go => exact ⟨⟨_, _, _, _, rfl⟩, rfl⟩
  | empty => exact ⟨⟨_, _, _, _, rfl⟩, rfl⟩
  | @take event orderQueue =>
    obtain ⟨book, matcher, hhandle, -⟩ := handle_eq s event orderQueue
    exact ⟨⟨matcher, book, orderQueue, s.outputQueue, hhandle⟩, rfl⟩
  | again => exact ⟨⟨_, _, _, _, rfl⟩, rfl⟩
  | resume => exact ⟨⟨_, _, _, _, rfl⟩, rfl⟩

theorem WriterStep.frame (h : WriterStep s r) :
    (∃ writer outputQueue, r.1 = { s with writer, outputQueue }) ∧ errText r.2 = [] := by
  cases h with
  | idle => exact ⟨⟨_, _, rfl⟩, rfl⟩
  | stopped => exact ⟨⟨_, _, rfl⟩, rfl⟩
  | go => exact ⟨⟨_, _, rfl⟩, rfl⟩
  | empty => exact ⟨⟨_, _, rfl⟩, rfl⟩
  | finish => exact ⟨⟨_, _, rfl⟩, rfl⟩
  | write => exact ⟨⟨_, _, rfl⟩, rfl⟩

/-- The flag stays up. -/
theorem stop_step (capacities : Capacities) (hstop : s.stop = true) (mover : Mover) :
    (s.step capacities mover).1.stop = true := by
  cases mover with
  | reader =>
    obtain ⟨reader, orderQueue, hframe⟩ := (readerStep_spec capacities s).frame
    rw [step, hframe, hstop]
  | matcher =>
    obtain ⟨⟨matcher, book, orderQueue, outputQueue, hframe⟩, -⟩ := (matcherStep_spec capacities s).frame
    rw [step, hframe, hstop]
  | writer =>
    obtain ⟨⟨writer, outputQueue, hframe⟩, -⟩ := (writerStep_spec s).frame
    rw [step, hframe, hstop]
  | requestStop => rfl

/-! ### What is still to be taken up -/

/-- The units that an agent may still take up once the flag is up. -/
def credit (s : Pipeline) : Mover → Nat
  | .reader => s.reader.unread.length
  | .matcher => if s.matcher = .popping then 1 else 0
  | .writer => if s.writer = .popping then 1 else 0
  | .requestStop => 0

theorem credit_readerStep (hstep : ReaderStep capacities s r) :
    (if s.takesUp .reader then 1 else 0) + r.1.credit .reader ≤ s.credit .reader := by
  cases hstep with
  | idle hreader => simp [takesUp, credit, hreader]
  | finish hreader => simp [takesUp, credit, hreader, Reader.unread]
  | accept hreader =>
    simp only [takesUp, credit, hreader, Reader.unread, Option.getD_some, List.length_cons, if_true]
    omega
  | skip hreader =>
    simp only [takesUp, credit, hreader, Reader.unread, List.length_cons, if_true]
    omega
  | report hreader =>
    simp only [takesUp, credit, hreader, Reader.unread, List.length_cons, if_true]
    omega
  | again hreader => simp [takesUp, credit, hreader, Reader.unread]
  | resume hreader =>
    simp only [takesUp, credit, hreader, Reader.unread_resumeReader]
    simp [Reader.unread]

theorem credit_matcherStep (hstop : s.stop = true) (hstep : MatcherStep capacities s r) :
    (if s.takesUp .matcher then 1 else 0) + r.1.credit .matcher ≤ s.credit .matcher := by
  cases hstep with
  | idle hmatcher =>
    obtain hmatcher | ⟨fault, hmatcher⟩ := hmatcher
    · simp [takesUp, credit, hmatcher]
    · simp [takesUp, credit, hmatcher]
  | stopped hmatcher => simp [takesUp, credit, hmatcher]
  | go _ hgo => exact absurd (hgo.symm.trans hstop) Bool.false_ne_true
  | empty hmatcher hqueue => simp [takesUp, credit, hmatcher, hqueue]
  | @take event orderQueue hmatcher hqueue =>
    obtain ⟨book, matcher, hhandle, hmatcher'⟩ := handle_eq s event orderQueue
    have hne : matcher ≠ .popping := by
      rcases hmatcher' with ⟨exits, rest, rfl⟩ | ⟨fault, rfl⟩
      · exact Matcher.resumeMatcher_ne_popping exits rest
      · exact Matcher.noConfusion
    rw [hhandle]
    simp [takesUp, credit, hmatcher, hqueue, hne]
  | again hmatcher => simp [takesUp, credit, hmatcher]
  | resume hmatcher => simp [takesUp, credit, hmatcher, Matcher.resumeMatcher_ne_popping]

theorem credit_writerStep (hstop : s.stop = true) (hstep : WriterStep s r) :
    (if s.takesUp .writer then 1 else 0) + r.1.credit .writer ≤ s.credit .writer := by
  cases hstep with
  | idle hwriter =>
    obtain hwriter | hwriter := hwriter
    · simp [takesUp, credit, hwriter]
    · simp [takesUp, credit, hwriter]
  | stopped hwriter => simp [takesUp, credit, hwriter]
  | go _ hgo => exact absurd (hgo.symm.trans hstop) Bool.false_ne_true
  | empty hwriter hqueue => simp [takesUp, credit, hwriter, hqueue]
  | finish hwriter hqueue => simp [takesUp, credit, hwriter, hqueue]
  | write hwriter hqueue => simp [takesUp, credit, hwriter, hqueue]

/-- **A unit taken up with the flag up is paid for.** -/
theorem credit_step (hstop : s.stop = true) (agent mover : Mover) :
    (if (mover = agent && s.takesUp agent) then 1 else 0) + (s.step capacities mover).1.credit agent
      ≤ s.credit agent := by
  by_cases hmover : mover = agent
  · subst hmover
    simp only [decide_true, Bool.true_and]
    cases mover with
    | reader => exact credit_readerStep (readerStep_spec capacities s)
    | matcher => exact credit_matcherStep hstop (matcherStep_spec capacities s)
    | writer => exact credit_writerStep hstop (writerStep_spec s)
    | requestStop => exact Nat.le_refl 0
  · simp only [hmover, decide_false, Bool.false_and, Bool.false_eq_true, if_false, Nat.zero_add]
    cases mover with
    | reader =>
      obtain ⟨reader, orderQueue, hframe⟩ := (readerStep_spec capacities s).frame
      rw [step, hframe]
      cases agent with
      | reader => exact absurd rfl hmover
      | _ => exact Nat.le_refl _
    | matcher =>
      obtain ⟨⟨matcher, book, orderQueue, outputQueue, hframe⟩, -⟩ :=
        (matcherStep_spec capacities s).frame
      rw [step, hframe]
      cases agent with
      | matcher => exact absurd rfl hmover
      | _ => exact Nat.le_refl _
    | writer =>
      obtain ⟨⟨writer, outputQueue, hframe⟩, -⟩ := (writerStep_spec s).frame
      rw [step, hframe]
      cases agent with
      | writer => exact absurd rfl hmover
      | _ => exact Nat.le_refl _
    | requestStop =>
      cases agent <;> exact Nat.le_refl _

theorem unitsTaken_le (hstop : s.stop = true) (agent : Mover) (schedule : List Mover) :
    s.unitsTaken capacities agent schedule ≤ s.credit agent :=
  Interleaving.count_le (step capacities) (fun s => s.credit agent)
    (fun _ mover hstop => stop_step capacities hstop mover)
    (fun _ mover hstop => credit_step hstop agent mover) hstop schedule

/-! ### The reader -/

/-- A reader without lines has nothing to report. -/
theorem ReaderStep.silent (h : ReaderStep capacities s r) (hunread : s.reader.unread = []) :
    errText r.2 = [] ∧ r.1.reader.unread = [] := by
  cases h with
  | idle => exact ⟨rfl, hunread⟩
  | finish => exact ⟨rfl, rfl⟩
  | accept hreader => simp [hreader, Reader.unread] at hunread
  | skip hreader => simp [hreader, Reader.unread] at hunread
  | report hreader => simp [hreader, Reader.unread] at hunread
  | again hreader =>
    rw [hreader] at hunread
    exact ⟨rfl, hunread⟩
  | resume hreader =>
    rw [hreader] at hunread
    exact ⟨rfl, (Reader.unread_resumeReader _).trans hunread⟩

theorem silent_step (capacities : Capacities) (hunread : s.reader.unread = []) (mover : Mover) :
    errText (s.step capacities mover).2 = [] ∧
      (s.step capacities mover).1.reader.unread = [] := by
  cases mover with
  | reader => exact (readerStep_spec capacities s).silent hunread
  | matcher =>
    obtain ⟨⟨matcher, book, orderQueue, outputQueue, hframe⟩, hwrites⟩ :=
      (matcherStep_spec capacities s).frame
    rw [step, hframe, hwrites]
    exact ⟨rfl, hunread⟩
  | writer =>
    obtain ⟨⟨writer, outputQueue, hframe⟩, hwrites⟩ := (writerStep_spec s).frame
    rw [step, hframe]
    exact ⟨hwrites, hunread⟩
  | requestStop => exact ⟨rfl, hunread⟩

theorem silent_run (hunread : s.reader.unread = []) (schedule : List Mover) :
    errText (Interleaving.run (step capacities) s schedule).2 = [] := by
  have hrun := Interleaving.run_invariant (step capacities) (s := s)
    (P := fun s writes => errText writes = [] ∧ s.reader.unread = []) ⟨rfl, hunread⟩ ?_ schedule
  · exact hrun.1
  · intro s writes mover h
    obtain ⟨hsilent, hunread⟩ := silent_step capacities h.2 mover
    refine ⟨?_, hunread⟩
    rw [errText_append, h.1, hsilent, List.append_nil]

theorem stop_run (hstop : s.stop = true) (schedule : List Mover) :
    (Interleaving.run (step capacities) s schedule).1.stop = true :=
  Interleaving.run_invariant (step capacities) (P := fun s _ => s.stop = true) hstop
    (fun _ _ mover hstop => stop_step capacities hstop mover) schedule

/-- With the flag up the reader gives up the event at hand, and goes back to its lines. -/
theorem exists_reading (capacities : Capacities) (hstop : s.stop = true)
    {loop : PushLoop InputEvent} {lines : List Bytes}
    (hreader : s.reader = .pushing loop (some lines)) :
    ∃ schedule, (Interleaving.run (step capacities) s schedule).1.reader = .reading lines := by
  cases loop with
  | test event =>
    refine ⟨[.reader], ?_⟩
    simp only [Interleaving.run, step, readerStep, hreader, PushLoop.step, hstop, if_true, resumeReader]
  | attempt event =>
    by_cases hspace : s.orderQueue.length < capacities.order
    · refine ⟨[.reader], ?_⟩
      simp only [Interleaving.run, step, readerStep, hreader, PushLoop.step, hspace, if_true,
        resumeReader]
    · refine ⟨[.reader, .reader], ?_⟩
      simp only [Interleaving.run, step, readerStep, hreader, PushLoop.step, hspace, hstop, if_true,
        if_false, resumeReader]

/-- From a line the reader gets to the next one. -/
theorem exists_next_reading (capacities : Capacities) (hstop : s.stop = true)
    {line : Bytes} {lines : List Bytes}
    (hreader : s.reader = .reading (line :: lines)) :
    ∃ schedule, (Interleaving.run (step capacities) (s.step capacities .reader).1 schedule).1.reader
      = .reading lines := by
  have hstop' := stop_step capacities hstop .reader
  cases hline : parseLine line with
  | ok event =>
    have hpushing : (s.step capacities .reader).1.reader = .pushing (.test event) (some lines) := by
      simp only [step, readerStep, hreader, hline]
    exact exists_reading capacities hstop' hpushing
  | skipped =>
    refine ⟨[], ?_⟩
    simp only [Interleaving.run, step, readerStep, hreader, hline]
  | error diagnostic =>
    refine ⟨[], ?_⟩
    simp only [Interleaving.run, step, readerStep, hreader, hline]

theorem exists_unitsTaken_of_reading (capacities : Capacities) (hstop : s.stop = true)
    {lines : List Bytes}
    (hreader : s.reader = .reading lines) :
    ∃ schedule, lines.length ≤ s.unitsTaken capacities .reader schedule := by
  induction lines generalizing s with
  | nil => exact ⟨[], Nat.zero_le _⟩
  | cons line lines ih =>
    obtain ⟨next, hnext⟩ := exists_next_reading capacities hstop hreader
    obtain ⟨rest, hrest⟩ := ih (stop_run (stop_step capacities hstop .reader) next) hnext
    refine ⟨.reader :: (next ++ rest), ?_⟩
    have htakes : s.takesUp .reader = true := by
      simp only [takesUp, hreader]
    rw [unitsTaken, Interleaving.count, Interleaving.count_append, htakes, List.length_cons]
    rw [unitsTaken] at hrest
    simp only [decide_true, Bool.true_and, if_true]
    omega

/-- With the flag up the reader can still read every line there is. -/
theorem exists_unitsTaken (capacities : Capacities) (hstop : s.stop = true) :
    ∃ schedule, s.reader.unread.length ≤ s.unitsTaken capacities .reader schedule := by
  cases hreader : s.reader with
  | reading lines => exact exists_unitsTaken_of_reading capacities hstop hreader
  | done => exact ⟨[], Nat.zero_le _⟩
  | pushing loop lines =>
    cases lines with
    | none => exact ⟨[], Nat.zero_le _⟩
    | some lines =>
      obtain ⟨back, hback⟩ := exists_reading capacities hstop hreader
      obtain ⟨rest, hrest⟩ := exists_unitsTaken_of_reading capacities (stop_run hstop back) hback
      refine ⟨back ++ rest, ?_⟩
      rw [unitsTaken, Interleaving.count_append]
      exact hrest.trans (Nat.le_add_left _ _)

theorem abortReaches_iff_unread (hstop : s.stop = true) :
    s.AbortReaches capacities ↔ s.reader.unread = [] := by
  constructor
  · intro h
    obtain ⟨schedule, hschedule⟩ := exists_unitsTaken capacities hstop
    rw [h.reader] at hschedule
    exact List.length_eq_zero_iff.mp (Nat.le_zero.mp hschedule)
  · intro hunread
    refine ⟨hstop, ?_, unitsTaken_le hstop .matcher, unitsTaken_le hstop .writer, silent_run hunread⟩
    intro schedule
    have hle : s.unitsTaken capacities .reader schedule ≤ s.credit .reader :=
      unitsTaken_le hstop .reader schedule
    rw [credit, hunread] at hle
    exact Nat.le_zero.mp hle

end Pipeline

/-- **When an abort reaches every agent**: if and only if the reader has no line left to read when the
flag goes up. -/
theorem pipeline_abort_iff (capacities : Capacities) (input : Bytes) (before : List Mover) :
    (Pipeline.run capacities input (before ++ [.requestStop])).1.AbortReaches capacities ↔
      (Pipeline.run capacities input before).1.reader.unread = [] := by
  rw [Pipeline.run, Interleaving.run_concat]
  exact Pipeline.abortReaches_iff_unread rfl

/-- Two lines are read, and reported, with the flag up from the start. -/
theorem not_pipeline_abort :
    ¬ (Pipeline.run ⟨1, 1⟩ (ascii "X\nY\n") [.requestStop]).1.AbortReaches ⟨1, 1⟩ := by
  intro h
  have hread := h.reader [.reader, .reader]
  exact absurd hread (by decide)

end MatchingEngine
