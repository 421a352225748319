import Mathlib.Data.List.Forall2
import Mathlib.Logic.Relation
import MatchingEngine.Text.Grammar

/-!
# Layout and noise

The events of a stream depend on the fields of its lines only (`event?_congr`), and the fields of a
line do not change when white space is put in at one of its ends or next to a comma
(`fields_indented`). Blank lines and comments have no event, and of the ill-formed lines only those have
one that are messages with one comma too many. As the stream is read line by line, this makes its events
independent of its layout and of its noise exactly as long as there are no such lines in it.
-/

namespace MatchingEngine

open Delimited

/-! ### Layout -/

/-- A blank, a tab or a CR is put into the line at one of its ends or next to a comma. -/
def Indented (line line' : Bytes) : Prop :=
  ∃ front back : Bytes, ∃ w : UInt8, line = front ++ back ∧ line' = front ++ w :: back ∧
    (w = 32 ∨ w = 9 ∨ w = 13) ∧
    (front = [] ∨ back = [] ∨ (∃ before, front = before ++ [comma]) ∨ ∃ after, back = comma :: after)

/-- The line holds nothing but white space. -/
def BlankLine (line : Bytes) : Prop := ∀ c ∈ line, isWs c = true

/-- The line starts, after white space, with `#`. -/
def CommentLine (line : Bytes) : Prop :=
  ∃ blanks rest : Bytes, line = blanks ++ hash :: rest ∧ ∀ c ∈ blanks, isWs c = true

/-- The line is for the parser to read, and its fields are not those of a message. -/
def IllFormed (line : Bytes) : Prop :=
  ¬ BlankLine line ∧ ¬ CommentLine line ∧ ∀ e, ¬ Message (fields line) e

def NoiseLine (line : Bytes) : Prop := BlankLine line ∨ CommentLine line ∨ IllFormed line

/-- Noise, without the ill-formed lines that the parser lets pass. -/
def IgnoredLine (line : Bytes) : Prop := NoiseLine line ∧ ¬ TrailingComma line

/-- What stands behind this text starts a line. -/
def LineStart (before : Bytes) : Prop := before = [] ∨ ∃ front, before = front ++ [lineFeed]

/-- What stands in front of this text ends a line. -/
def LineEnd (after : Bytes) : Prop := after = [] ∨ ∃ back, after = lineFeed :: back

/-- One change to the layout of a stream or to its noise. -/
inductive LayoutEdit (Noise : Bytes → Prop) : Bytes → Bytes → Prop where
  | indent {before after line line' : Bytes} (hstart : LineStart before) (hend : LineEnd after)
      (hline : lineFeed ∉ line) (h : Indented line line') :
      LayoutEdit Noise (before ++ line ++ after) (before ++ line' ++ after)
  | noise {before after line : Bytes} (hstart : LineStart before) (hline : lineFeed ∉ line)
      (h : Noise line) : LayoutEdit Noise (before ++ after) (before ++ line ++ lineFeed :: after)
  | finalNewline (input : Bytes) : LayoutEdit Noise input (input ++ [lineFeed])

/-- Two streams differ in layout and in ignored lines only. -/
def SameUpToLayout (input input' : Bytes) : Prop := Relation.EqvGen (LayoutEdit IgnoredLine) input input'

/-- Each stream comes from the one before it by one change, made or taken back. -/
def Edited (streams : List Bytes) : Prop :=
  streams.IsChain fun input input' => LayoutEdit NoiseLine input input' ∨ LayoutEdit NoiseLine input' input

/-! ### The fields of a line -/

theorem trimmed_cons {w : UInt8} (hw : isWs w = true) (sv : Bytes) :
    trimmed (w :: sv) = trimmed sv := trim_cons hw sv

theorem trimmed_concat {w : UInt8} (hw : isWs w = true) (sv : Bytes) :
    trimmed (sv ++ [w]) = trimmed sv := trim_concat hw sv

theorem ne_comma_of_isWs {w : UInt8} (hw : isWs w = true) : w ≠ comma := by
  intro heq
  subst heq
  exact absurd hw (by decide)

/-- The pieces between the commas, trimmed, do not see white space at the ends of the text. -/
theorem map_trimmed_splitOn_cons {w : UInt8} (hw : isWs w = true) (sv : Bytes) :
    ((w :: sv).splitOn comma).map trimmed = (sv.splitOn comma).map trimmed := by
  obtain ⟨p, ps, hps, hcons⟩ := splitOn_cons_of_ne (ne_comma_of_isWs hw) sv
  rw [hps, hcons, List.map_cons, List.map_cons, trimmed_cons hw]

theorem map_trimmed_splitOn_concat {w : UInt8} (hw : isWs w = true) (sv : Bytes) :
    ((sv ++ [w]).splitOn comma).map trimmed = (sv.splitOn comma).map trimmed := by
  obtain ⟨ps, p, hps, hconcat⟩ := splitOn_concat_of_ne (ne_comma_of_isWs hw) sv
  rw [hps, hconcat, List.map_append, List.map_append, List.map_singleton, List.map_singleton,
    trimmed_concat hw]

theorem map_trimmed_splitOn_append {blanks : Bytes} (hblanks : ∀ c ∈ blanks, isWs c = true)
    (sv : Bytes) : ((blanks ++ sv).splitOn comma).map trimmed = (sv.splitOn comma).map trimmed := by
  induction blanks with
  | nil => rw [List.nil_append]
  | cons w blanks ih =>
    rw [List.cons_append, map_trimmed_splitOn_cons (hblanks w (List.mem_cons_self ..)),
      ih fun c hc => hblanks c (List.mem_cons_of_mem _ hc)]

theorem map_trimmed_splitOn_append_right {blanks : Bytes} (hblanks : ∀ c ∈ blanks, isWs c = true)
    (sv : Bytes) : ((sv ++ blanks).splitOn comma).map trimmed = (sv.splitOn comma).map trimmed := by
  induction blanks using List.reverseRecOn with
  | nil => rw [List.append_nil]
  | append_singleton blanks w ih =>
    rw [← List.append_assoc, map_trimmed_splitOn_concat (hblanks w (by simp)),
      ih fun c hc => hblanks c (List.mem_append_left _ hc)]

/-- Trimming the line first makes no difference to its fields. -/
theorem fields_eq (line : Bytes) : fields line = (line.splitOn comma).map trimmed := by
  obtain ⟨front, back, hline, hfront, hback⟩ := exists_trim isWs line
  have hsplit : (line.splitOn comma).map trimmed = ((trimmed line).splitOn comma).map trimmed := by
    calc (line.splitOn comma).map trimmed
        = ((front ++ trimmed line ++ back).splitOn comma).map trimmed := by rw [trimmed, ← hline]
      _ = ((front ++ trimmed line).splitOn comma).map trimmed :=
          map_trimmed_splitOn_append_right hback _
      _ = ((trimmed line).splitOn comma).map trimmed := map_trimmed_splitOn_append hfront _
  rw [fields, hsplit]

/-- **White space at the ends of a line and next to its commas is no part of its fields.** -/
theorem fields_indented {line line' : Bytes} (h : Indented line line') :
    fields line' = fields line := by
  obtain ⟨front, back, w, rfl, rfl, hw, hplace⟩ := h
  have hws : isWs w = true := by
    rcases hw with rfl | rfl | rfl <;> decide
  rw [fields_eq, fields_eq]
  rcases hplace with rfl | rfl | ⟨before, rfl⟩ | ⟨after, rfl⟩
  · exact map_trimmed_splitOn_cons hws back
  · rw [List.append_nil]
    exact map_trimmed_splitOn_concat hws front
  · -- behind a comma it starts a piece
    rw [List.append_assoc, List.append_assoc, List.singleton_append, List.singleton_append,
      List.splitOn_append_cons_self, List.splitOn_append_cons_self, List.map_append, List.map_append,
      map_trimmed_splitOn_cons hws]
  · -- in front of a comma it ends one
    rw [List.append_cons, List.splitOn_append_cons_self, List.splitOn_append_cons_self,
      List.map_append, List.map_append, map_trimmed_splitOn_concat hws]

/-! ### The verdict on a line -/

theorem trimmed_eq_nil_iff (line : Bytes) : trimmed line = [] ↔ BlankLine line := trim_eq_nil_iff

theorem head?_trimmed_eq_hash_iff (line : Bytes) :
    (trimmed line).head? = some hash ↔ CommentLine line := by
  constructor
  · intro hhead
    obtain ⟨rest, hrest⟩ := List.head?_eq_some_iff.mp hhead
    obtain ⟨front, back, hline, hfront, -⟩ := exists_trim isWs line
    rw [← trimmed, hrest, List.append_assoc, List.cons_append] at hline
    exact ⟨front, rest ++ back, hline, hfront⟩
  · intro hcomment
    obtain ⟨blanks, rest, rfl, hblanks⟩ := hcomment
    induction blanks with
    | nil => exact head?_trim_cons (by decide) rest
    | cons w blanks ih =>
      rw [List.cons_append, trimmed_cons (hblanks w (List.mem_cons_self ..))]
      exact ih fun c hc => hblanks c (List.mem_cons_of_mem _ hc)

theorem parseAdd_ne_skipped (line cursor : Bytes) : parseAdd line cursor ≠ .skipped := by
  simp only [parseAdd]
  split
  · split
    · simp
    · split <;> simp
  · simp

theorem parseCancel_ne_skipped (line cursor : Bytes) : parseCancel line cursor ≠ .skipped := by
  simp only [parseCancel]
  split
  · split <;> simp
  · simp

theorem parseLine_eq_skipped_iff (line : Bytes) :
    parseLine line = .skipped ↔ BlankLine line ∨ CommentLine line := by
  rw [← trimmed_eq_nil_iff, ← head?_trimmed_eq_hash_iff]
  simp only [parseLine]
  constructor
  · intro hskipped
    by_contra hnot
    rw [if_neg hnot] at hskipped
    split at hskipped
    · exact parseAdd_ne_skipped _ _ hskipped
    · split at hskipped
      · exact parseCancel_ne_skipped _ _ hskipped
      · cases hskipped
  · intro hskip
    rw [if_pos hskip]

/-- The last field of a message is not empty. -/
theorem Message.getLast?_ne {message : List Bytes} {e : InputEvent} (h : Message message e) :
    message.getLast? ≠ some [] := by
  cases e with
  | addOrder event =>
    obtain ⟨id, quantity, price, rfl, -⟩ := h
    have htif : tifToken event.tif ≠ [] := by
      cases event.tif <;> decide
    simpa using htif
  | cancelOrder event =>
    obtain ⟨id, rfl, hid⟩ := h
    simpa using denotes_ne_nil hid
  | shutdown => exact h.elim

theorem TrailingComma.not_message {line : Bytes} (h : TrailingComma line) (e : InputEvent) :
    ¬ Message (fields line) e := by
  obtain ⟨message, e', hfields, -⟩ := h
  intro hmessage
  apply hmessage.getLast?_ne
  rw [hfields, List.getLast?_concat]

theorem TrailingComma.exists_ok {line : Bytes} (h : TrailingComma line) : ∃ e, parseLine line = .ok e := by
  obtain ⟨message, e, hfields, hmessage⟩ := h
  exact ⟨e, parseLine_eq_ok_iff.mpr ⟨message, hmessage, Or.inr hfields⟩⟩

/-- A message with one comma too many is ill-formed. -/
theorem TrailingComma.illFormed {line : Bytes} (h : TrailingComma line) : IllFormed line := by
  obtain ⟨e, hok⟩ := h.exists_ok
  have hread : ¬ (BlankLine line ∨ CommentLine line) := by
    rw [← parseLine_eq_skipped_iff, hok]
    nofun
  exact ⟨fun hblank => hread (Or.inl hblank), fun hcomment => hread (Or.inr hcomment), h.not_message⟩

/-- **The verdict on ill-formed lines**: they are reported, but for messages with one comma too many. -/
theorem parseLine_eq_error_iff (line : Bytes) :
    (∃ diagnostic, parseLine line = .error diagnostic) ↔ IllFormed line ∧ ¬ TrailingComma line := by
  constructor
  · rintro ⟨diagnostic, herror⟩
    have hread : ¬ (BlankLine line ∨ CommentLine line) := by
      rw [← parseLine_eq_skipped_iff, herror]
      nofun
    refine ⟨⟨fun hblank => hread (Or.inl hblank), fun hcomment => hread (Or.inr hcomment), ?_⟩, ?_⟩
    · intro e hmessage
      rw [parseLine_eq_ok_iff.mpr ⟨_, hmessage, Or.inl rfl⟩] at herror
      cases herror
    · intro htrailing
      obtain ⟨e, hok⟩ := htrailing.exists_ok
      rw [hok] at herror
      cases herror
  · rintro ⟨⟨hblank, hcomment, hnot⟩, htrailing⟩
    cases hparse : parseLine line with
    | error diagnostic => exact ⟨diagnostic, rfl⟩
    | skipped => exact absurd ((parseLine_eq_skipped_iff line).mp hparse) (not_or.mpr ⟨hblank, hcomment⟩)
    | ok e =>
      obtain ⟨message, hmessage, hfields | hfields⟩ := parseLine_eq_ok_iff.mp hparse
      · exact absurd (hfields ▸ hmessage) (hnot e)
      · exact absurd ⟨message, e, hfields, hmessage⟩ htrailing

/-! ### The events of a stream -/

/-- The event of a line that the parser accepts. -/
def event? (line : Bytes) : Option InputEvent :=
  match parseLine line with
  | .ok event => some event
  | _ => none

theorem event?_eq_some_iff {line : Bytes} {e : InputEvent} :
    event? line = some e ↔ parseLine line = .ok e := by
  rw [event?]
  cases parseLine line <;> simp

theorem event?_eq_none_iff {line : Bytes} :
    event? line = none ↔ ∀ e, parseLine line ≠ .ok e := by
  rw [Option.eq_none_iff_forall_ne_some]
  exact forall_congr' fun e => not_congr event?_eq_some_iff

theorem trailingComma_iff (line : Bytes) :
    TrailingComma line ↔ event? line ≠ none ∧ (fields line).getLast? = some [] := by
  constructor
  · intro h
    obtain ⟨e, hok⟩ := h.exists_ok
    obtain ⟨message, -, hfields, -⟩ := h
    rw [event?_eq_some_iff.mpr hok, hfields, List.getLast?_concat]
    exact ⟨Option.some_ne_none e, rfl⟩
  · rintro ⟨hevent, hlast⟩
    obtain ⟨e, he⟩ := Option.ne_none_iff_exists'.mp hevent
    obtain ⟨message, hmessage, hfields | hfields⟩ := parseLine_eq_ok_iff.mp (event?_eq_some_iff.mp he)
    · exact absurd (hfields ▸ hlast) hmessage.getLast?_ne
    · exact ⟨message, e, hfields, hmessage⟩

instance : DecidablePred TrailingComma := fun line => decidable_of_iff _ (trailingComma_iff line).symm

/-- An ill-formed line is read, and it is reported or has one comma too many. -/
theorem illFormed_iff (line : Bytes) :
    IllFormed line ↔ parseLine line ≠ .skipped ∧ (event? line = none ∨ TrailingComma line) := by
  constructor
  · intro h
    refine ⟨?_, ?_⟩
    · rw [ne_eq, parseLine_eq_skipped_iff, not_or]
      exact ⟨h.1, h.2.1⟩
    · by_cases htrailing : TrailingComma line
      · exact Or.inr htrailing
      · obtain ⟨diagnostic, herror⟩ := (parseLine_eq_error_iff line).mpr ⟨h, htrailing⟩
        left
        rw [event?, herror]
  · rintro ⟨hread, hevent | htrailing⟩
    · cases hparse : parseLine line with
      | skipped => exact absurd hparse hread
      | ok e => exact absurd hparse (event?_eq_none_iff.mp hevent e)
      | error diagnostic => exact ((parseLine_eq_error_iff line).mp ⟨diagnostic, hparse⟩).1
    · exact htrailing.illFormed

instance : DecidablePred IllFormed := fun line => decidable_of_iff _ (illFormed_iff line).symm

/-- Lines with the same fields have the same event. -/
theorem event?_congr {line line' : Bytes} (h : fields line' = fields line) :
    event? line' = event? line := by
  ext e
  rw [event?_eq_some_iff, event?_eq_some_iff, parseLine_eq_ok_iff, parseLine_eq_ok_iff, h]

theorem event?_of_ignored {line : Bytes} (h : IgnoredLine line) : event? line = none := by
  rw [event?_eq_none_iff]
  intro e hok
  obtain ⟨hblank | hcomment | hill, htrailing⟩ := h
  · rw [(parseLine_eq_skipped_iff line).mpr (Or.inl hblank)] at hok
    cases hok
  · rw [(parseLine_eq_skipped_iff line).mpr (Or.inr hcomment)] at hok
    cases hok
  · obtain ⟨diagnostic, herror⟩ := (parseLine_eq_error_iff line).mpr ⟨hill, htrailing⟩
    rw [herror] at hok
    cases hok

theorem parseLines_events (lines : List Bytes) :
    (parseLines lines).1 = lines.filterMap event? := by
  induction lines with
  | nil => rfl
  | cons line lines ih =>
    rw [parseLines, List.filterMap_cons, event?, ← ih]
    cases parseLine line <;> rfl

/-- What stands behind the last LF counts as a line here even when it is empty. -/
theorem parseStream_events (input : Bytes) :
    (parseStream input).1 = (input.splitOn lineFeed).filterMap event? := by
  rw [parseStream, parseLines_events, getlines]
  split
  · rename_i hlast
    have hpieces := List.dropLast_append_getLast? [] hlast
    conv_rhs => rw [← hpieces]
    rw [List.filterMap_append]
    exact (List.append_nil _).symm
  · rfl

theorem events_append_cons (xs ys : Bytes) : (parseStream (xs ++ lineFeed :: ys)).1 =
    (parseStream xs).1 ++ (parseStream ys).1 := by
  simp only [parseStream_events, List.splitOn_append_cons_self, List.filterMap_append]

theorem events_line {line : Bytes} (h : lineFeed ∉ line) :
    (parseStream line).1 = (event? line).toList := by
  rw [parseStream_events, List.splitOn_eq_singleton h]
  cases hevent : event? line <;> simp [hevent]

theorem events_append_of_lineStart {before : Bytes} (h : LineStart before) (rest : Bytes) :
    (parseStream (before ++ rest)).1 = (parseStream before).1 ++ (parseStream rest).1 := by
  rcases h with rfl | ⟨front, rfl⟩
  · rfl
  · rw [List.append_assoc, List.singleton_append, events_append_cons, events_append_cons]
    rw [show (parseStream []).1 = [] from rfl, List.append_nil]

theorem events_append_of_lineEnd {after : Bytes} (h : LineEnd after) (rest : Bytes) :
    (parseStream (rest ++ after)).1 = (parseStream rest).1 ++ (parseStream after).1 := by
  rcases h with rfl | ⟨back, rfl⟩
  · rw [List.append_nil, show (parseStream []).1 = [] from rfl, List.append_nil]
  · have hback := events_append_cons [] back
    rw [List.nil_append, show (parseStream []).1 = [] from rfl, List.nil_append] at hback
    rw [events_append_cons, hback]

theorem events_layoutEdit {input input' : Bytes} (h : LayoutEdit IgnoredLine input input') :
    (parseStream input').1 = (parseStream input).1 := by
  cases h with
  | @indent before after line line' hstart hend hline hindented =>
    have hline' : lineFeed ∉ line' := by
      obtain ⟨front, back, w, rfl, rfl, hw, -⟩ := hindented
      have hne : lineFeed ≠ w := by
        rcases hw with rfl | rfl | rfl <;> decide
      simpa [hne] using hline
    rw [events_append_of_lineEnd hend, events_append_of_lineEnd hend,
      events_append_of_lineStart hstart, events_append_of_lineStart hstart, events_line hline,
      events_line hline', event?_congr (fields_indented hindented)]
  | @noise before after line hstart hline hnoise =>
    rw [List.append_assoc, events_append_of_lineStart hstart, events_append_of_lineStart hstart,
      events_append_cons, events_line hline, event?_of_ignored hnoise, Option.toList_none,
      List.nil_append]
  | finalNewline =>
    rw [events_append_cons, show (parseStream []).1 = [] from rfl, List.append_nil]

theorem events_sameUpToLayout {input input' : Bytes} (h : SameUpToLayout input input') :
    (parseStream input').1 = (parseStream input).1 := by
  induction h with
  | rel input input' hedit => exact events_layoutEdit hedit
  | refl input => rfl
  | symm input input' _ ih => exact ih.symm
  | trans input between input' _ _ ih ih' => exact ih'.trans ih

/-! ### Diagnostics -/

/-- The bytes are one line with its LF. -/
def OneLine (bytes : Bytes) : Prop := ∃ text, lineFeed ∉ text ∧ bytes = text ++ [lineFeed]

theorem oneLine_println {parts : List Bytes} (h : ∀ part ∈ parts, lineFeed ∉ part) :
    OneLine (println parts) := by
  refine ⟨parts.flatten, ?_, rfl⟩
  intro hmem
  obtain ⟨part, hpart, hlf⟩ := List.mem_flatten.mp hmem
  exact h part hpart hlf

theorem oneLine_println_pair {message text : Bytes} (hmessage : lineFeed ∉ message)
    (htext : lineFeed ∉ text) : OneLine (println [message, text]) := by
  apply oneLine_println
  simp only [List.forall_mem_cons]
  exact ⟨hmessage, htext, List.forall_mem_nil _⟩

theorem trimmed_subset (sv : Bytes) : trimmed sv ⊆ sv := by
  intro c hc
  obtain ⟨front, back, hsv, -, -⟩ := exists_trim isWs sv
  rw [hsv]
  exact List.mem_append_left _ (List.mem_append_right _ hc)

/-- The fields of a line are cut out of it. -/
theorem not_mem_field {line : Bytes} {c : UInt8} (h : c ∉ line) (i : Nat) :
    c ∉ (fields line).getD i [] := by
  intro hc
  have hfield : (fields line).getD i [] ∈ fields line := by
    rw [List.getD_eq_getElem?_getD] at hc ⊢
    cases hi : (fields line)[i]? with
    | none => simp [hi] at hc
    | some field => exact List.mem_of_getElem? hi
  rw [fields, List.mem_map] at hfield
  obtain ⟨piece, hpiece, heq⟩ := hfield
  rw [fields, ← heq] at hc
  have hin := mem_of_mem_splitOn hpiece (trimmed_subset _ hc)
  exact h (trimmed_subset _ hin)

theorem oneLine_parseAdd {line diagnostic : Bytes} (hline : lineFeed ∉ line)
    (h : parseAdd (trimmed line) (cursorAt line 1) = .error diagnostic) : OneLine diagnostic := by
  have htrimmed : lineFeed ∉ trimmed line := fun hc => hline (trimmed_subset _ hc)
  have hside := not_mem_field hline 2
  have htif := not_mem_field hline 5
  simp only [parseAdd, nextField_cursorAt, Nat.reduceAdd] at h
  split at h
  · split at h
    · obtain rfl := ParseResult.error.inj h
      exact oneLine_println_pair (by decide) htrimmed
    · split at h
      · obtain rfl := ParseResult.error.inj h
        refine oneLine_println ?_
        simp only [List.forall_mem_cons]
        exact ⟨by decide, hside, by decide, htrimmed, List.forall_mem_nil _⟩
      · obtain rfl := ParseResult.error.inj h
        refine oneLine_println ?_
        simp only [List.forall_mem_cons]
        exact ⟨by decide, htif, by decide, htrimmed, List.forall_mem_nil _⟩
      · cases h
  · obtain rfl := ParseResult.error.inj h
    exact oneLine_println_pair (by decide) htrimmed

theorem oneLine_parseCancel {line diagnostic : Bytes} (hline : lineFeed ∉ line)
    (h : parseCancel (trimmed line) (cursorAt line 1) = .error diagnostic) : OneLine diagnostic := by
  have htrimmed : lineFeed ∉ trimmed line := fun hc => hline (trimmed_subset _ hc)
  simp only [parseCancel, nextField_cursorAt, Nat.reduceAdd] at h
  split at h
  · split at h
    · obtain rfl := ParseResult.error.inj h
      exact oneLine_println_pair (by decide) htrimmed
    · cases h
  · obtain rfl := ParseResult.error.inj h
    exact oneLine_println_pair (by decide) htrimmed

/-- Every diagnostic is one line. -/
theorem oneLine_parseLine {line diagnostic : Bytes} (hline : lineFeed ∉ line)
    (h : parseLine line = .error diagnostic) : OneLine diagnostic := by
  have hopcode := nextField_cursorAt line 0
  rw [cursorAt_zero] at hopcode
  have htype := not_mem_field hline 0
  simp only [parseLine, hopcode] at h
  split at h
  · cases h
  · split at h
    · exact oneLine_parseAdd hline h
    · split at h
      · exact oneLine_parseCancel hline h
      · obtain rfl := ParseResult.error.inj h
        exact oneLine_println_pair (by decide) htype

/-- A diagnostic line for each ill-formed line, in order. -/
def Reports (err : Bytes) (lines : List Bytes) : Prop :=
  ∃ diagnostics : List Bytes, err = diagnostics.flatten ∧
    List.Forall₂ (fun line diagnostic => parseLine line = .error diagnostic ∧ OneLine diagnostic)
      (lines.filter fun line => IllFormed line) diagnostics

theorem reports_parseLines {lines : List Bytes} (h : ∀ line ∈ lines, lineFeed ∉ line)
    (htrailing : ∀ line ∈ lines, ¬ TrailingComma line) : Reports (parseLines lines).2 lines := by
  induction lines with
  | nil => exact ⟨[], rfl, List.Forall₂.nil⟩
  | cons line lines ih =>
    obtain ⟨hline, hlines⟩ := List.forall_mem_cons.mp h
    obtain ⟨hplain, hrest⟩ := List.forall_mem_cons.mp htrailing
    obtain ⟨diagnostics, herr, hdiagnostics⟩ := ih hlines hrest
    by_cases hill : IllFormed line
    · obtain ⟨diagnostic, hparse⟩ := (parseLine_eq_error_iff line).mpr ⟨hill, hplain⟩
      have hone := oneLine_parseLine hline hparse
      refine ⟨diagnostic :: diagnostics, ?_, ?_⟩
      · simp only [parseLines, hparse, herr, List.flatten_cons]
      · rw [List.filter_cons_of_pos (by simpa using hill)]
        exact List.Forall₂.cons ⟨hparse, hone⟩ hdiagnostics
    · refine ⟨diagnostics, ?_, ?_⟩
      · rw [← herr, parseLines]
        cases hparse : parseLine line with
        | ok e => rfl
        | skipped => rfl
        | error diagnostic => exact absurd ((parseLine_eq_error_iff line).mp ⟨_, hparse⟩).1 hill
      · rwa [List.filter_cons_of_neg (by simpa using hill)]

/-- A message with one comma too many is ill-formed and not reported. -/
theorem Reports.not_trailingComma {err line : Bytes} {lines : List Bytes} (h : Reports err lines)
    (hline : line ∈ lines) : ¬ TrailingComma line := by
  intro htrailing
  obtain ⟨diagnostics, -, hdiagnostics⟩ := h
  have hmem : line ∈ lines.filter fun line => IllFormed line :=
    List.mem_filter.mpr ⟨hline, decide_eq_true htrailing.illFormed⟩
  obtain ⟨i, hi, hget⟩ := List.getElem_of_mem hmem
  have herror := (hdiagnostics.get hi (hdiagnostics.length_eq ▸ hi)).1
  rw [List.get_eq_getElem, hget] at herror
  exact ((parseLine_eq_error_iff line).mp ⟨_, herror⟩).2 htrailing

theorem lineFeed_not_mem_of_mem_getlines {input line : Bytes} (h : line ∈ getlines input) :
    lineFeed ∉ line := by
  rw [getlines] at h
  split at h
  · exact not_mem_of_mem_splitOn (List.dropLast_subset _ h)
  · exact not_mem_of_mem_splitOn h

/-! ### Edits -/

/-- A line that is put in is a line of the stream. -/
theorem mem_getlines_of_lineStart {before line : Bytes} (hstart : LineStart before)
    (hline : lineFeed ∉ line) (after : Bytes) : line ∈ getlines (before ++ line ++ lineFeed :: after) := by
  have hsplit : ∃ front, (before ++ line ++ lineFeed :: after).splitOn lineFeed
      = front ++ line :: after.splitOn lineFeed := by
    rcases hstart with rfl | ⟨text, rfl⟩
    · refine ⟨[], ?_⟩
      rw [List.nil_append, List.splitOn_append_cons_self, List.splitOn_eq_singleton hline]
      rfl
    · refine ⟨text.splitOn lineFeed, ?_⟩
      rw [List.append_assoc, List.append_assoc, List.singleton_append, List.splitOn_append_cons_self,
        List.splitOn_append_cons_self, List.splitOn_eq_singleton hline]
      rfl
  obtain ⟨front, hsplit⟩ := hsplit
  have hne : after.splitOn lineFeed ≠ [] := List.splitOn_ne_nil _ _
  rw [getlines, hsplit]
  split
  · rw [List.dropLast_append_of_ne_nil (List.cons_ne_nil _ _), List.dropLast_cons_of_ne_nil hne]
    simp
  · simp

/-- An edit that puts in no message with one comma too many puts in ignored lines only. -/
theorem LayoutEdit.ignored {input input' : Bytes} (h : LayoutEdit NoiseLine input input')
    (htrailing : ∀ line ∈ getlines input', ¬ TrailingComma line) : LayoutEdit IgnoredLine input input' := by
  cases h with
  | indent hstart hend hline h => exact .indent hstart hend hline h
  | noise hstart hline h =>
    exact .noise hstart hline ⟨h, htrailing _ (mem_getlines_of_lineStart hstart hline _)⟩
  | finalNewline => exact .finalNewline input

theorem events_edited {input : Bytes} {edited : List Bytes} (h : Edited (input :: edited))
    (htrailing : ∀ input' ∈ input :: edited, ∀ line ∈ getlines input', ¬ TrailingComma line) :
    ∀ input' ∈ input :: edited, (parseStream input').1 = (parseStream input).1 := by
  induction edited generalizing input with
  | nil =>
    intro input' hmem
    rw [List.mem_singleton.mp hmem]
  | cons next edited ih =>
    obtain ⟨hinput, hnext⟩ := List.forall_mem_cons.mp htrailing
    obtain ⟨hedit, hrest⟩ := List.isChain_cons_cons.mp h
    have hstep : (parseStream next).1 = (parseStream input).1 := by
      rcases hedit with hedit | hedit
      · exact events_layoutEdit (hedit.ignored (hnext next (List.mem_cons_self ..)))
      · exact (events_layoutEdit (hedit.ignored hinput)).symm
    intro input' hmem
    rcases List.mem_cons.mp hmem with rfl | hmem
    · rfl
    · exact (ih hrest hnext input' hmem).trans hstep

/-- **When layout and noise do not reach the book.** Whatever a stream is edited into, it all has the
events of the stream and a line of diagnostics for each of its ill-formed lines, in order, if and only if
none of it has a message with one comma too many among its lines. -/
theorem parseStream_layout_iff (input : Bytes) (edited : List Bytes) (h : Edited (input :: edited)) :
    (∀ input' ∈ input :: edited, (parseStream input').1 = (parseStream input).1 ∧
      Reports (parseStream input').2 (getlines input')) ↔
    ∀ input' ∈ input :: edited, ∀ line ∈ getlines input', ¬ TrailingComma line := by
  constructor
  · intro hall input' hmem line hline
    exact (hall input' hmem).2.not_trailingComma hline
  · intro htrailing input' hmem
    exact ⟨events_edited h htrailing input' hmem,
      reports_parseLines (fun _ => lineFeed_not_mem_of_mem_getlines) (htrailing input' hmem)⟩

/-- The LF of a line becomes CR and LF, and a line that is no message is put in front of it. -/
theorem parseStream_layout_iff_crlf :
    (parseStream (ascii "CXL,1\r\n")).1 = (parseStream (ascii "CXL,1\n")).1 ∧
      (parseStream (ascii "CXL\nCXL,1\r\n")).1 = (parseStream (ascii "CXL,1\n")).1 ∧
      Reports (parseStream (ascii "CXL\nCXL,1\r\n")).2 (getlines (ascii "CXL\nCXL,1\r\n")) := by
  have hcrlf : LayoutEdit NoiseLine (ascii "CXL,1\n") (ascii "CXL,1\r\n") :=
    LayoutEdit.indent (Or.inl rfl) (Or.inr ⟨[], rfl⟩) (by decide)
      ⟨ascii "CXL,1", [], 13, rfl, rfl, by decide, Or.inr (Or.inl rfl)⟩
  have hnoise : LayoutEdit NoiseLine (ascii "CXL,1\r\n") (ascii "CXL\nCXL,1\r\n") :=
    @LayoutEdit.noise _ [] _ (ascii "CXL") (Or.inl rfl) (by decide) (Or.inr (Or.inr (by decide +kernel)))
  have hedited : Edited [ascii "CXL,1\n", ascii "CXL,1\r\n", ascii "CXL\nCXL,1\r\n"] :=
    List.IsChain.cons_cons (Or.inl hcrlf) (List.IsChain.cons_cons (Or.inl hnoise) (List.IsChain.singleton _))
  have hall := (parseStream_layout_iff _ _ hedited).mpr (by decide +kernel)
  obtain ⟨hevents, -⟩ := hall (ascii "CXL,1\r\n") (by simp)
  obtain ⟨hevents', hreports⟩ := hall (ascii "CXL\nCXL,1\r\n") (by simp)
  exact ⟨hevents, hevents', hreports⟩

/-- A cancel with a comma behind it is put into an empty stream: it is ill-formed, and it is not reported
but reaches the book. -/
theorem not_parseStream_layout :
    Edited [[], ascii "CXL,5,\n"] ∧ getlines (ascii "CXL,5,\n") = [ascii "CXL,5,"] ∧
      IllFormed (ascii "CXL,5,") ∧ parseStream [] = ([], []) ∧
      parseStream (ascii "CXL,5,\n") = ([.cancelOrder ⟨5⟩], []) := by
  have hill : IllFormed (ascii "CXL,5,") := by decide +kernel
  refine ⟨?_, by decide +kernel, hill, rfl, by decide +kernel⟩
  have hnoise : LayoutEdit NoiseLine [] (ascii "CXL,5,\n") :=
    @LayoutEdit.noise _ [] [] (ascii "CXL,5,") (Or.inl rfl) (by decide) (Or.inr (Or.inr hill))
  exact List.IsChain.cons_cons (Or.inl hnoise) (List.IsChain.singleton _)

end MatchingEngine
