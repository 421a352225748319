import MatchingEngine.Text.Encoding

/-!
# Reading the output back

The lines that the formatter writes can be told apart: the tag of a line says how many fields follow
and what they are, no field holds a comma or a line feed, and a number is written in one way only. A
decoder that cuts the text at the line feeds and each line at the commas recovers every event.
-/

namespace MatchingEngine

open Delimited

/-- Every number in the event is a value of the integer type. -/
def OutputEvent.Fits (T : SignedInt) : OutputEvent → Prop
  | .trade event => T.Fits event.aggressiveOrderId ∧ T.Fits event.restingOrderId ∧ T.Fits event.quantity
  | .orderResting event =>
    T.Fits event.orderId ∧ T.Fits event.filledQuantity ∧ T.Fits event.restingQuantity
  | .orderFilled event => T.Fits event.orderId ∧ T.Fits event.filledQuantity
  | .orderCancelled event =>
    T.Fits event.orderId ∧ T.Fits event.filledQuantity ∧ T.Fits event.cancelledQuantity
  | .orderRejected event => T.Fits event.orderId
  | .shutdown => True

/-- An event that has a line, of 64-bit values. -/
def OutputEvent.Printable (e : OutputEvent) : Prop := e ≠ .shutdown ∧ e.Fits .int64

/-! ### The decoder -/

def rejectCode? (token : Bytes) : Option RejectCode :=
  [.duplicateOrderId, .unknownOrderId, .invalidQuantity, .invalidPrice, .invalidOrderId].find?
    fun code => rejectCodeToken code = token

def cancelCause? (token : Bytes) : Option CancelCause :=
  [.userRequest, .immediateOrCancel, .fillOrKill].find? fun cause => cancelCauseToken cause = token

def decodeFields : List Bytes → Option OutputEvent
  | [tag, first, second] =>
    if tag = wireFilled then do
      return .orderFilled ⟨← parseInt first, ← parseInt second⟩
    else if tag = wireRejected then do
      return .orderRejected ⟨← parseInt first, ← rejectCode? second⟩
    else none
  | [tag, first, second, third] =>
    if tag = wireTrade then do
      return .trade ⟨← parseInt first, ← parseInt second, ← parseInt third⟩
    else if tag = wireResting then do
      return .orderResting ⟨← parseInt first, ← parseInt second, ← parseInt third⟩
    else none
  | [tag, first, second, third, cause] =>
    if tag = wireCancelled then do
      return .orderCancelled ⟨← parseInt first, ← parseInt second, ← parseInt third, ← cancelCause? cause⟩
    else none
  | _ => none

def decode (text : Bytes) : Option (List OutputEvent) :=
  (getlines text).mapM fun line => decodeFields (line.splitOn comma)

/-! ### What it recovers -/

/-- The fields of the line of an event. -/
def outputFields : OutputEvent → List Bytes
  | .trade event => [wireTrade, formatInt event.aggressiveOrderId, formatInt event.restingOrderId,
      formatInt event.quantity]
  | .orderResting event => [wireResting, formatInt event.orderId, formatInt event.filledQuantity,
      formatInt event.restingQuantity]
  | .orderFilled event => [wireFilled, formatInt event.orderId, formatInt event.filledQuantity]
  | .orderCancelled event => [wireCancelled, formatInt event.orderId, formatInt event.filledQuantity,
      formatInt event.cancelledQuantity, cancelCauseToken event.cause]
  | .orderRejected event => [wireRejected, formatInt event.orderId, rejectCodeToken event.rejectCode]
  | .shutdown => []

theorem format_eq {e : OutputEvent} (he : e ≠ .shutdown) :
    format e = lineOf (outputFields e) ++ [lineFeed] := by
  have hline : ∀ fs, printFields fs = lineOf fs ++ [lineFeed] := by
    intro fs
    rw [printFields, println, List.flatten_singleton]
    rfl
  cases e with
  | shutdown => exact absurd rfl he
  | _ => exact hline _

theorem parseInt_formatInt {x : Int} (hfits : SignedInt.int64.Fits x) : parseInt (formatInt x) = some x := by
  rw [formatInt_eq]
  exact parseInt_eq_some_iff.mpr (denotes_writeInt 0 hfits)

theorem rejectCode?_token (code : RejectCode) : rejectCode? (rejectCodeToken code) = some code := by
  cases code <;> decide

theorem cancelCause?_token (cause : CancelCause) : cancelCause? (cancelCauseToken cause) = some cause := by
  cases cause <;> decide

theorem decodeFields_outputFields {e : OutputEvent} (h : e.Printable) :
    decodeFields (outputFields e) = some e := by
  obtain ⟨he, hfits⟩ := h
  cases e with
  | trade event =>
    obtain ⟨haggressive, hresting, hqty⟩ := hfits
    simp [outputFields, decodeFields, parseInt_formatInt haggressive, parseInt_formatInt hresting,
      parseInt_formatInt hqty]
  | orderResting event =>
    obtain ⟨hid, hfilled, hresting⟩ := hfits
    have hne : wireResting ≠ wireTrade := by decide
    simp [outputFields, decodeFields, hne, parseInt_formatInt hid, parseInt_formatInt hfilled,
      parseInt_formatInt hresting]
  | orderFilled event =>
    obtain ⟨hid, hfilled⟩ := hfits
    simp [outputFields, decodeFields, parseInt_formatInt hid, parseInt_formatInt hfilled]
  | orderCancelled event =>
    obtain ⟨hid, hfilled, hcancelled⟩ := hfits
    simp [outputFields, decodeFields, parseInt_formatInt hid, parseInt_formatInt hfilled,
      parseInt_formatInt hcancelled, cancelCause?_token]
  | orderRejected event =>
    have hne : wireRejected ≠ wireFilled := by decide
    have hid : parseInt (formatInt event.orderId) = some event.orderId := parseInt_formatInt hfits
    simp [outputFields, decodeFields, hne, hid, rejectCode?_token]
  | shutdown => exact absurd rfl he

/-- Neither a comma nor a line feed is a part of a field. -/
theorem plain_outputFields {e : OutputEvent} (h : e.Printable) :
    outputFields e ≠ [] ∧ ∀ field ∈ outputFields e, Plain field := by
  have hint : ∀ {x : Int}, SignedInt.int64.Fits x → Plain (formatInt x) := fun hfits =>
    (denotes_writeInt 0 hfits).plain
  have hcode : ∀ code, Plain (rejectCodeToken code) := by
    intro code
    cases code <;> decide +kernel
  have hcause : ∀ cause, Plain (cancelCauseToken cause) := by
    intro cause
    cases cause <;> decide +kernel
  obtain ⟨he, hfits⟩ := h
  cases e with
  | trade event =>
    have htag : Plain wireTrade := by decide +kernel
    simp [outputFields, htag, hint hfits.1, hint hfits.2.1, hint hfits.2.2]
  | orderResting event =>
    have htag : Plain wireResting := by decide +kernel
    simp [outputFields, htag, hint hfits.1, hint hfits.2.1, hint hfits.2.2]
  | orderFilled event =>
    have htag : Plain wireFilled := by decide +kernel
    simp [outputFields, htag, hint hfits.1, hint hfits.2]
  | orderCancelled event =>
    have htag : Plain wireCancelled := by decide +kernel
    simp [outputFields, htag, hint hfits.1, hint hfits.2.1, hint hfits.2.2, hcause]
  | orderRejected event =>
    have htag : Plain wireRejected := by decide +kernel
    simp [outputFields, htag, hint hfits, hcode]
  | shutdown => exact absurd rfl he

/-- Lines that end in LF are the lines that are read. -/
theorem getlines_flatMap {lines : List Bytes} (h : ∀ line ∈ lines, lineFeed ∉ line) :
    getlines (lines.flatMap fun line => line ++ [lineFeed]) = lines := by
  have hpieces : ∀ piece ∈ lines ++ [[]], lineFeed ∉ piece := by
    intro piece hpiece
    rcases List.mem_append.mp hpiece with hpiece | hpiece
    · exact h piece hpiece
    · rw [List.mem_singleton.mp hpiece]
      exact List.not_mem_nil
  rw [getlines, flatMap_concat, List.splitOn_intercalate lineFeed hpieces (by simp)]
  simp

/-- The decoder recovers the events. -/
theorem decode_format {es : List OutputEvent} (h : ∀ e ∈ es, e.Printable) :
    decode (es.flatMap format) = some es := by
  have hlines : es.flatMap format
      = (es.map fun e => lineOf (outputFields e)).flatMap fun line => line ++ [lineFeed] := by
    rw [List.flatMap_map]
    exact List.flatMap_congr fun e he => format_eq (h e he).1
  have hclean : ∀ line ∈ es.map fun e => lineOf (outputFields e), lineFeed ∉ line := by
    intro line hline
    obtain ⟨e, he, rfl⟩ := List.mem_map.mp hline
    exact lineFeed_not_mem_lineOf (plain_outputFields (h e he)).2
  rw [decode, hlines, getlines_flatMap hclean]
  clear hlines hclean
  induction es with
  | nil => rfl
  | cons e es ih =>
    obtain ⟨he, hes⟩ := List.forall_mem_cons.mp h
    obtain ⟨hne, hplain⟩ := plain_outputFields he
    rw [List.map_cons, List.mapM_cons, splitOn_lineOf hplain hne, decodeFields_outputFields he, ih hes]
    rfl

/-- **The output can be read back.** Events that are written alike are the same, since a decoder
recovers them from what is written, and each of them is one line. -/
theorem format_decodable :
    (∀ es es' : List OutputEvent, (∀ e ∈ es, e.Printable) → (∀ e ∈ es', e.Printable) →
        es.flatMap format = es'.flatMap format → es = es') ∧
      (∀ es : List OutputEvent, (∀ e ∈ es, e.Printable) → decode (es.flatMap format) = some es) ∧
      ∀ e : OutputEvent, e.Printable → OneLine (format e) := by
  refine ⟨?_, fun es h => decode_format h, ?_⟩
  · intro es es' h h' heq
    have hdecode := decode_format h
    rw [heq, decode_format h'] at hdecode
    exact (Option.some.inj hdecode).symm
  · intro e he
    exact ⟨lineOf (outputFields e), lineFeed_not_mem_lineOf (plain_outputFields he).2, format_eq he.1⟩

end MatchingEngine
