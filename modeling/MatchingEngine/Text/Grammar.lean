import Mathlib.Data.Nat.Digits.Defs
import MatchingEngine.Model.InputParser

/-!
# The grammar of input lines

What the documentation says a message is, in terms of the fields of the whole line: its pieces
between commas, trimmed. The parser looks at one field after the other and at what its cursor has
left in the end. It accepts the messages of the grammar, but also each of them with one more comma
behind it: the cursor in front of an empty last field has nothing left, either.
-/

namespace MatchingEngine

open Delimited

/-! ### The grammar -/

/-- The fields of a line. -/
def fields (line : Bytes) : List Bytes := ((trimmed line).splitOn comma).map trimmed

/-- The number that digits stand for. -/
def numeral (digits : Bytes) : Nat := Nat.ofDigits 10 (digits.reverse.map fun d => d.toNat - 48)

/-- A minus sign or none, then digits, for a value of the integer type. -/
def Denotes (field : Bytes) (x : Int) : Prop :=
  SignedInt.int64.Fits x ∧ ∃ digits : Bytes, digits ≠ [] ∧ (∀ d ∈ digits, isDigit d = true) ∧
    (field = digits ∧ x = numeral digits ∨ field = minus :: digits ∧ x = -numeral digits)

def sideToken : Side → Bytes
  | .buy => wireBuy
  | .sell => wireSell

def tifToken : Tif → Bytes
  | .gtc => wireTifGtc
  | .ioc => wireTifIoc
  | .fok => wireTifFok

/-- The fields are those of a message for this event. -/
def Message (fields : List Bytes) : InputEvent → Prop
  | .addOrder event => ∃ id quantity price,
      fields = [wireAdd, id, sideToken event.side, quantity, price, tifToken event.tif] ∧
        Denotes id event.orderId ∧ Denotes quantity event.quantity ∧ Denotes price event.price
  | .cancelOrder event => ∃ id, fields = [wireCancel, id] ∧ Denotes id event.orderId
  | .shutdown => False

/-- A message and one comma too many. -/
def TrailingComma (line : Bytes) : Prop :=
  ∃ message event, fields line = message ++ [[]] ∧ Message message event

/-! ### Fields -/

theorem decimalValue_eq (digits : Bytes) : decimalValue digits = numeral digits := by
  induction digits using List.reverseRecOn with
  | nil => rfl
  | append_singleton digits d ih =>
    rw [decimalValue, List.foldl_append, ← decimalValue, ih, numeral, numeral, List.reverse_append,
      List.reverse_singleton, List.singleton_append, List.map_cons, Nat.ofDigits_cons]
    simp only [List.foldl_cons, List.foldl_nil]
    omega

theorem parseInt_eq_some_iff_fromChars {sv : Bytes} {x : Int} :
    parseInt sv = some x ↔ fromChars sv = some (x, []) := by
  rw [parseInt]
  by_cases hnil : sv = []
  · subst hnil
    exact iff_of_false (by simp) (by simp [fromChars])
  rw [if_neg hnil]
  cases hchars : fromChars sv with
  | none => simp
  | some result =>
    obtain ⟨value, rest⟩ := result
    cases rest <;> simp

/-- `fromChars` reads the whole of its input if, behind the sign, there are digits and no more. -/
theorem fromChars_eq_some_iff {sv : Bytes} {x : Int} : fromChars sv = some (x, []) ↔
    (sv.head? = some minus ∧ (∀ d ∈ sv.tail, isDigit d = true) ∧ sv.tail ≠ [] ∧
        SignedInt.int64.Fits x ∧ x = -decimalValue sv.tail) ∨
      (sv.head? ≠ some minus ∧ (∀ d ∈ sv, isDigit d = true) ∧ sv ≠ [] ∧
        SignedInt.int64.Fits x ∧ x = decimalValue sv) := by
  have hread : ∀ (unsigned : Bytes) (value : Bytes → Int),
      (if unsigned.takeWhile isDigit = [] then none
        else if SignedInt.int64.Fits (value (unsigned.takeWhile isDigit)) then
          some (value (unsigned.takeWhile isDigit), unsigned.dropWhile isDigit)
        else none) = some (x, []) ↔
      (∀ d ∈ unsigned, isDigit d = true) ∧ unsigned ≠ [] ∧ SignedInt.int64.Fits x ∧
        x = value unsigned := by
    intro unsigned value
    constructor
    · intro hsome
      by_cases hdigits : unsigned.takeWhile isDigit = []
      · simp [hdigits] at hsome
      rw [if_neg hdigits] at hsome
      by_cases hfits : SignedInt.int64.Fits (value (unsigned.takeWhile isDigit))
      · rw [if_pos hfits, Option.some.injEq, Prod.mk.injEq] at hsome
        obtain ⟨rfl, hrest⟩ := hsome
        have hall : unsigned.takeWhile isDigit = unsigned := by
          have hsplit := List.takeWhile_append_dropWhile (p := isDigit) (l := unsigned)
          rwa [hrest, List.append_nil] at hsplit
        rw [hall] at hdigits hfits ⊢
        exact ⟨List.dropWhile_eq_nil_iff.mp hrest, hdigits, hfits, rfl⟩
      · simp [hfits] at hsome
    · rintro ⟨hall, hne, hfits, rfl⟩
      have htake : unsigned.takeWhile isDigit = unsigned := List.takeWhile_eq_self_iff.mpr hall
      rw [htake, if_neg hne, if_pos hfits, List.dropWhile_eq_nil_iff.mpr hall]
  rw [fromChars]
  by_cases hsign : sv.head? = some minus
  · simpa [hsign] using hread sv.tail fun digits => -decimalValue digits
  · simpa [hsign] using hread sv fun digits => decimalValue digits

theorem parseInt_eq_some_iff {sv : Bytes} {x : Int} : parseInt sv = some x ↔ Denotes sv x := by
  rw [parseInt_eq_some_iff_fromChars, fromChars_eq_some_iff, Denotes]
  simp only [decimalValue_eq]
  constructor
  · rintro (⟨hsign, hall, hne, hfits, hx⟩ | ⟨-, hall, hne, hfits, hx⟩)
    · obtain ⟨digits, rfl⟩ := List.head?_eq_some_iff.mp hsign
      exact ⟨hfits, digits, hne, hall, Or.inr ⟨rfl, hx⟩⟩
    · exact ⟨hfits, sv, hne, hall, Or.inl ⟨rfl, hx⟩⟩
  · rintro ⟨hfits, digits, hne, hall, ⟨rfl, hx⟩ | ⟨rfl, hx⟩⟩
    · refine Or.inr ⟨?_, hall, hne, hfits, hx⟩
      intro hsign
      have hminus := hall minus (List.mem_of_head? hsign)
      exact absurd hminus (by decide)
    · exact Or.inl ⟨rfl, hall, hne, hfits, hx⟩

theorem parseSideToken_eq_some_iff {sv : Bytes} {side : Side} :
    parseSideToken sv = some side ↔ sv = sideToken side := by
  rw [parseSideToken]
  split_ifs with hbuy hsell
  · subst hbuy
    cases side <;> decide
  · subst hsell
    cases side <;> decide
  · apply iff_of_false (by simp)
    cases side
    · exact hbuy
    · exact hsell

theorem parseTifToken_eq_some_iff {sv : Bytes} {tif : Tif} :
    parseTifToken sv = some tif ↔ sv = tifToken tif := by
  rw [parseTifToken]
  split_ifs with hgtc hioc hfok
  · subst hgtc
    cases tif <;> decide
  · subst hioc
    cases tif <;> decide
  · subst hfok
    cases tif <;> decide
  · apply iff_of_false (by simp)
    cases tif
    · exact hgtc
    · exact hioc
    · exact hfok

/-! ### The cursor -/

/-- The cursor of the parser behind a number of fields. -/
def cursorAt (line : Bytes) (i : Nat) : Bytes :=
  [comma].intercalate (((trimmed line).splitOn comma).drop i)

theorem cursorAt_zero (line : Bytes) : cursorAt line 0 = trimmed line :=
  List.intercalate_splitOn comma

theorem nextField_cursorAt (line : Bytes) (i : Nat) :
    nextField (cursorAt line i) = ((fields line).getD i [], cursorAt line (i + 1)) := by
  have hpieces : ∀ p ∈ ((trimmed line).splitOn comma).drop i, comma ∉ p := fun p hp =>
    not_mem_of_mem_splitOn (List.mem_of_mem_drop hp)
  have hfield : trimmed ((((trimmed line).splitOn comma)[i]?).getD []) = (fields line).getD i [] := by
    rw [fields, List.getD_eq_getElem?_getD, List.getElem?_map]
    cases ((trimmed line).splitOn comma)[i]? with
    | none => exact trim_nil
    | some piece => rfl
  simp only [nextField, cursorAt, peel_intercalate hpieces, List.head?_drop, List.tail_drop, hfield]

/-- Nothing is left to the cursor behind the last field and in front of an empty last one. -/
theorem cursorAt_eq_nil_iff (line : Bytes) (i : Nat) :
    cursorAt line i = [] ↔ (fields line).drop i = [] ∨ (fields line).drop i = [[]] := by
  rw [cursorAt, intercalate_eq_nil_iff, fields, ← List.map_drop, List.map_eq_nil_iff]
  apply or_congr_right
  constructor
  · intro hlast
    rw [hlast]
    exact congrArg (fun field => [field]) trim_nil
  · intro hlast
    obtain ⟨q, hdrop, hq⟩ := List.map_eq_singleton_iff.mp hlast
    rw [hdrop]
    congr 1
    by_contra hne
    -- the trimmed line would end in white space
    have hsuffix : q <:+ trimmed line := by
      have hend := suffix_intercalate comma (((trimmed line).splitOn comma).take i) q
      rwa [← hdrop, List.take_append_drop, List.intercalate_splitOn] at hend
    obtain ⟨front, hfront⟩ := hsuffix
    have hend : (trimmed line).getLast? = some (q.getLast hne) := by
      rw [← hfront, List.getLast?_append, List.getLast?_eq_some_getLast hne]
      rfl
    have hws := trim_eq_nil_iff.mp hq _ (List.getLast_mem hne)
    rw [not_of_getLast?_trim hend] at hws
    exact absurd hws (by decide)

/-- A line that is passed over has neither opcode. -/
theorem opcode_of_skipped {line : Bytes}
    (hskip : trimmed line = [] ∨ (trimmed line).head? = some hash) :
    (fields line).getD 0 [] ≠ wireAdd ∧ (fields line).getD 0 [] ≠ wireCancel := by
  obtain ⟨p, ps, hpieces⟩ := List.exists_cons_of_ne_nil (List.splitOn_ne_nil comma (trimmed line))
  have hfirst : (fields line).getD 0 [] = trimmed p := by
    rw [fields, hpieces]
    rfl
  have hinitial := prefix_intercalate comma p ps
  rw [← hpieces, List.intercalate_splitOn] at hinitial
  rw [hfirst]
  cases p with
  | nil =>
    rw [trimmed, trim_nil]
    decide
  | cons c p =>
    obtain ⟨rest, hrest⟩ := hinitial
    have hhash : c = hash := by
      rcases hskip with hnil | hhead
      · simp [hnil] at hrest
      · simpa [← hrest] using hhead
    subst hhash
    have hhead := head?_trim_cons (p := isWs) (x := hash) (by decide) p
    constructor
    · intro heq
      rw [show trim isWs (hash :: p) = wireAdd from heq] at hhead
      exact absurd hhead (by decide)
    · intro heq
      rw [show trim isWs (hash :: p) = wireCancel from heq] at hhead
      exact absurd hhead (by decide)

/-! ### What the parser accepts -/

theorem parseAdd_eq_ok_iff {line : Bytes} {e : InputEvent} :
    parseAdd (trimmed line) (cursorAt line 1) = .ok e ↔ ∃ event, e = .addOrder event ∧
      Denotes ((fields line).getD 1 []) event.orderId ∧
      (fields line).getD 2 [] = sideToken event.side ∧
      Denotes ((fields line).getD 3 []) event.quantity ∧
      Denotes ((fields line).getD 4 []) event.price ∧
      (fields line).getD 5 [] = tifToken event.tif ∧ cursorAt line 6 = [] := by
  simp only [parseAdd, nextField_cursorAt, Nat.reduceAdd, ← parseInt_eq_some_iff,
    ← parseSideToken_eq_some_iff, ← parseTifToken_eq_some_iff]
  cases parseInt ((fields line).getD 1 []) with
  | none => simp
  | some orderId =>
  cases parseInt ((fields line).getD 3 []) with
  | none => simp
  | some quantity =>
  cases parseInt ((fields line).getD 4 []) with
  | none => simp
  | some price =>
  by_cases hrest : cursorAt line 6 = []
  · cases htif : parseTifToken ((fields line).getD 5 []) with
    | none =>
      cases parseSideToken ((fields line).getD 2 []) <;> simp <;> split <;> simp
    | some tif =>
      have hne : (fields line).getD 5 [] ≠ [] := by
        intro hnil
        rw [hnil] at htif
        cases htif
      dsimp only
      rw [if_neg (not_or.mpr ⟨hne, not_not.mpr hrest⟩)]
      cases parseSideToken ((fields line).getD 2 []) with
      | none => simp
      | some side =>
        simp only [hrest, Option.some.injEq, and_true, ParseResult.ok.injEq]
        constructor
        · rintro rfl
          exact ⟨_, rfl, rfl, rfl, rfl, rfl, rfl⟩
        · rintro ⟨event, rfl, rfl, rfl, rfl, rfl, rfl⟩
          rfl
  · simp [hrest]

theorem parseCancel_eq_ok_iff {line : Bytes} {e : InputEvent} :
    parseCancel (trimmed line) (cursorAt line 1) = .ok e ↔ ∃ event, e = .cancelOrder event ∧
      Denotes ((fields line).getD 1 []) event.orderId ∧ cursorAt line 2 = [] := by
  simp only [parseCancel, nextField_cursorAt, ← parseInt_eq_some_iff]
  cases parseInt ((fields line).getD 1 []) with
  | none => simp
  | some orderId =>
    by_cases hrest : cursorAt line 2 = []
    · simp only [hrest, ne_eq, not_true_eq_false, if_false, ParseResult.ok.injEq, Option.some.injEq,
        and_true]
      constructor
      · rintro rfl
        exact ⟨_, rfl, rfl⟩
      · rintro ⟨event, rfl, rfl⟩
        rfl
    · simp [hrest]

theorem parseLine_eq_ok_iff_opcode {line : Bytes} {e : InputEvent} : parseLine line = .ok e ↔
    ((fields line).getD 0 [] = wireAdd ∧ parseAdd (trimmed line) (cursorAt line 1) = .ok e) ∨
      ((fields line).getD 0 [] = wireCancel ∧ parseCancel (trimmed line) (cursorAt line 1) = .ok e) := by
  have hopcode := nextField_cursorAt line 0
  rw [cursorAt_zero] at hopcode
  simp only [parseLine, hopcode]
  by_cases hskip : trimmed line = [] ∨ (trimmed line).head? = some hash
  · obtain ⟨hadd, hcancel⟩ := opcode_of_skipped hskip
    rw [if_pos hskip]
    simp only [reduceCtorEq, hadd, hcancel, false_and, or_self]
  rw [if_neg hskip]
  by_cases hadd : (fields line).getD 0 [] = wireAdd
  · have hne : wireAdd ≠ wireCancel := by decide
    simp only [hadd, hne, if_true, true_and, false_and, or_false]
  rw [if_neg hadd]
  by_cases hcancel : (fields line).getD 0 [] = wireCancel
  · have hne : wireCancel ≠ wireAdd := by decide
    simp only [hcancel, hne, if_true, true_and, false_and, false_or]
  · simp only [hadd, hcancel, if_false, reduceCtorEq, false_and, or_self]

theorem denotes_ne_nil {field : Bytes} {x : Int} (h : Denotes field x) : field ≠ [] := by
  obtain ⟨-, digits, hne, -, ⟨rfl, -⟩ | ⟨rfl, -⟩⟩ := h
  · exact hne
  · exact List.cons_ne_nil _ _

/-- A fifth field behind the opcode that is not empty is there. -/
theorem fields_of_sixth {fs : List Bytes} (h : fs.getD 5 [] ≠ []) :
    fs = [fs.getD 0 [], fs.getD 1 [], fs.getD 2 [], fs.getD 3 [], fs.getD 4 [], fs.getD 5 []]
      ++ fs.drop 6 := by
  match fs with
  | [] | [_] | [_, _] | [_, _, _] | [_, _, _, _] | [_, _, _, _, _] => exact absurd rfl h
  | _ :: _ :: _ :: _ :: _ :: _ :: _ => rfl

theorem fields_of_second {fs : List Bytes} (h : fs.getD 1 [] ≠ []) :
    fs = [fs.getD 0 [], fs.getD 1 []] ++ fs.drop 2 := by
  match fs with
  | [] | [_] => exact absurd rfl h
  | _ :: _ :: _ => rfl

/-- **What the parser accepts**: messages, and messages with one comma too many. -/
theorem parseLine_eq_ok_iff {line : Bytes} {e : InputEvent} : parseLine line = .ok e ↔
    ∃ message, Message message e ∧ (fields line = message ∨ fields line = message ++ [[]]) := by
  rw [parseLine_eq_ok_iff_opcode, parseAdd_eq_ok_iff, parseCancel_eq_ok_iff]
  simp only [cursorAt_eq_nil_iff]
  constructor
  · rintro (⟨hopcode, event, rfl, hid, hside, hqty, hprice, htif, hrest⟩ |
      ⟨hopcode, event, rfl, hid, hrest⟩)
    · have hne : (fields line).getD 5 [] ≠ [] := by
        rw [htif]
        cases event.tif <;> decide
      have hsplit := fields_of_sixth hne
      rw [hopcode, hside, htif] at hsplit
      refine ⟨_, ⟨_, _, _, rfl, hid, hqty, hprice⟩, ?_⟩
      rcases hrest with hrest | hrest
      · left
        rwa [hrest, List.append_nil] at hsplit
      · right
        rwa [hrest] at hsplit
    · have hsplit := fields_of_second (denotes_ne_nil hid)
      rw [hopcode] at hsplit
      refine ⟨_, ⟨_, rfl, hid⟩, ?_⟩
      rcases hrest with hrest | hrest
      · left
        rwa [hrest, List.append_nil] at hsplit
      · right
        rwa [hrest] at hsplit
  · rintro ⟨message, hmessage, hfields⟩
    cases e with
    | addOrder event =>
      obtain ⟨id, quantity, price, rfl, hid, hqty, hprice⟩ := hmessage
      left
      rcases hfields with hfields | hfields
      · rw [hfields]
        exact ⟨rfl, event, rfl, hid, rfl, hqty, hprice, rfl, Or.inl rfl⟩
      · rw [hfields]
        exact ⟨rfl, event, rfl, hid, rfl, hqty, hprice, rfl, Or.inr rfl⟩
    | cancelOrder event =>
      obtain ⟨id, rfl, hid⟩ := hmessage
      right
      rcases hfields with hfields | hfields
      · rw [hfields]
        exact ⟨rfl, event, rfl, hid, Or.inl rfl⟩
      · rw [hfields]
        exact ⟨rfl, event, rfl, hid, Or.inr rfl⟩
    | shutdown => exact hmessage.elim

theorem Message.length_eq {message message' : List Bytes} {e : InputEvent} (h : Message message e)
    (h' : Message message' e) : message.length = message'.length := by
  cases e with
  | addOrder event =>
    obtain ⟨_, _, _, rfl, -⟩ := h
    obtain ⟨_, _, _, rfl, -⟩ := h'
    rfl
  | cancelOrder event =>
    obtain ⟨_, rfl, -⟩ := h
    obtain ⟨_, rfl, -⟩ := h'
    rfl
  | shutdown => exact h.elim

/-- **When what is accepted is a message.** -/
theorem parseLine_message_iff (line : Bytes) :
    (∀ e, parseLine line = .ok e → Message (fields line) e) ↔ ¬ TrailingComma line := by
  constructor
  · rintro hsound ⟨message, e, hfields, hmessage⟩
    have haccepted := hsound e (parseLine_eq_ok_iff.mpr ⟨message, hmessage, Or.inr hfields⟩)
    rw [hfields] at haccepted
    have hlength := hmessage.length_eq haccepted
    simp at hlength
  · intro hnot e haccepted
    obtain ⟨message, hmessage, hfields | hfields⟩ := parseLine_eq_ok_iff.mp haccepted
    · rwa [hfields]
    · exact absurd ⟨message, e, hfields, hmessage⟩ hnot

theorem not_parseLine_message :
    parseLine (ascii "CXL,5,") = .ok (.cancelOrder ⟨5⟩) ∧
      ¬ Message (fields (ascii "CXL,5,")) (.cancelOrder ⟨5⟩) := by
  refine ⟨by decide, ?_⟩
  rintro ⟨id, hfields, -⟩
  have hlength : (fields (ascii "CXL,5,")).length = 2 := congrArg List.length hfields
  exact absurd hlength (by decide)

end MatchingEngine
