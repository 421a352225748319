import MatchingEngine.Book.Snapshot
import MatchingEngine.Text.Decoding

/-!
# Streams of messages

A stream that is written message by message is read back event by event, and nothing is reported. On the
way out nothing is lost either: the quantities that the book emits are parts of quantities that came in,
so each number of an event is one that the integer type has and the decoder can read, whatever the totals
of the levels may have wrapped to.
-/

namespace MatchingEngine

open Delimited Divisible PriorityBook

/-! ### In -/

/-- A stream of messages, one a line, with the leading zeros of their numbers. -/
def writeStream (messages : List (Zeros × InputEvent)) : Bytes :=
  messages.flatMap fun message => lineOf (encode message.1 message.2) ++ [lineFeed]

theorem parseLines_of_ok {α : Type} {lines : α → Bytes} {events : α → InputEvent} {messages : List α}
    (h : ∀ message ∈ messages, parseLine (lines message) = .ok (events message)) :
    parseLines (messages.map lines) = (messages.map events, []) := by
  induction messages with
  | nil => rfl
  | cons message messages ih =>
    obtain ⟨hmessage, hmessages⟩ := List.forall_mem_cons.mp h
    rw [List.map_cons, parseLines, ih hmessages, hmessage]
    rfl

/-- The events are read back, and there is nothing to report. -/
theorem parseStream_writeStream {messages : List (Zeros × InputEvent)}
    (h : ∀ message ∈ messages, message.2 ≠ .shutdown ∧ message.2.Fits .int64) :
    parseStream (writeStream messages) = (messages.map Prod.snd, []) := by
  have hmessage : ∀ message ∈ messages, Message (encode message.1 message.2) message.2 :=
    fun message hmem => message_encode _ (h message hmem).1 (h message hmem).2
  have hclean : ∀ line ∈ messages.map fun message => lineOf (encode message.1 message.2),
      lineFeed ∉ line := by
    intro line hline
    obtain ⟨message, hmem, rfl⟩ := List.mem_map.mp hline
    exact lineFeed_not_mem_lineOf (hmessage message hmem).plain.2
  have hlines := getlines_flatMap hclean
  rw [List.flatMap_map] at hlines
  rw [parseStream, writeStream, hlines]
  exact parseLines_of_ok fun message hmem => parseLine_lineOf (hmessage message hmem)

/-! ### Out -/

section Numbers

variable {T : SignedInt} {b : PriorityBook}

theorem fillEvents_fits {taker q : Int} {os : List RestingOrder} (hpositive : Positive os)
    (htaker : T.Fits taker) (hids : ∀ o ∈ os, T.Fits o.orderId) (hqty : ∀ o ∈ os, T.Fits o.quantity) :
    ∀ e ∈ fillEvents taker q os, e.Fits T := by
  intro e he
  obtain ⟨⟨o, t⟩, htake, he⟩ := List.mem_flatMap.mp he
  obtain ⟨ho, hpos, hle⟩ := mem_takes hpositive htake
  have htaken : T.Fits t := (hqty o ho).of_le hpos.le hle
  have hremaining : T.Fits (o.quantity - t) := (hqty o ho).of_le (Int.sub_nonneg_of_le hle) (by omega)
  rcases List.mem_cons.mp he with rfl | he
  · exact ⟨htaker, hids o ho, htaken⟩
  · rw [List.mem_singleton.mp he]
    split
    · exact ⟨hids o ho, htaken⟩
    · exact ⟨hids o ho, htaken, hremaining⟩

/-- What an order is answered with is in the range of the type if the order and the book are. -/
theorem onInput_fits (h : b.Valid) (hids : KeysFit T b) (hqty : ∀ o ∈ b.orders, T.Fits o.quantity)
    (fillable : Bool) {event : InputEvent} (hfits : event.Fits T) :
    ∀ e ∈ (b.onInput fillable event).2, e.Fits T := by
  have hzero : T.Fits 0 := T.wrap_zero
  cases event with
  | shutdown => simp [PriorityBook.onInput]
  | cancelOrder event =>
    apply onCancelOrder_cases (P := fun _ emitted => ∀ e ∈ emitted, e.Fits T)
    · intro rejectCode e he
      rw [List.mem_singleton.mp he]
      exact hfits
    · intro o ho _ e he
      rw [List.mem_singleton.mp he]
      exact ⟨(hids o ho).1, hzero, hqty o ho⟩
  | addOrder event =>
    have hmakers : ∀ o ∈ b.makers event.side event.price, o ∈ b.orders := fun o ho =>
      mem_orders.mpr ⟨_, (crossed_sublist ..).subset ho⟩
    have hpositive := h.positive_makers event.side event.price
    have hnonneg := hpositive.total_nonneg
    have hfills : ∀ terminal : OutputEvent, terminal.Fits T →
        ∀ e ∈ fillEvents event.orderId event.quantity (b.makers event.side event.price) ++ [terminal],
          e.Fits T := by
      intro terminal hterminal e he
      rcases List.mem_append.mp he with he | he
      · exact fillEvents_fits hpositive hfits.1 (fun o ho => (hids o (hmakers o ho)).1)
          (fun o ho => hqty o (hmakers o ho)) e he
      · rwa [List.mem_singleton.mp he]
    apply onAddOrder_cases (P := fun _ emitted => ∀ e ∈ emitted, e.Fits T)
    · intro rejectCode _ e he
      rw [List.mem_singleton.mp he]
      exact hfits.1
    intro haccepted
    have hpart : ∀ q, 0 ≤ q → q ≤ event.quantity → T.Fits q := fun q => hfits.2.1.of_le
    have hresidue : total (b.makers event.side event.price) < event.quantity →
        T.Fits (event.quantity - total (b.makers event.side event.price)) := fun hlt =>
      hpart _ (Int.sub_nonneg_of_le hlt.le) (Int.sub_le_self _ hnonneg)
    apply addOrder_cases (P := fun _ emitted => ∀ e ∈ emitted, e.Fits T)
    · intro _ _ e he
      rw [List.mem_singleton.mp he]
      exact ⟨hfits.1, hzero, hfits.2.1⟩
    · intro _
      exact hfills _ ⟨hfits.1, hfits.2.1⟩
    · intro _ _ _
      exact hfills _ hfits.1
    · intro hlt _ _
      exact hfills _ ⟨hfits.1, hpart _ hnonneg hlt.le, hresidue hlt⟩
    · intro cause hlt _
      exact hfills _ ⟨hfits.1, hpart _ hnonneg hlt.le, hresidue hlt⟩

end Numbers

/-- Every number that a run emits is in the range of the type. -/
theorem run_emitted_fits {T : SignedInt} {events : List InputEvent} (hfits : ∀ e ∈ events, e.Fits T)
    {c : Clob} {emitted : List OutputEvent} (hrun : Clob.run T {} events = .ok (c, emitted)) :
    ∀ e ∈ emitted, e.Fits T := by
  obtain ⟨c', emitted', levels, hrun', -, -, hemitted⟩ := run_induction (T := T)
    (P := fun _ emitted _ levels => KeysFit T (bookOf levels) ∧ ∀ e ∈ emitted, e.Fits T)
    ⟨by simp [KeysFit, bookOf, ordersOf, orders], by simp⟩
    (by
      intro events emitted c levels event c' levels' hc hP hevent hbecomes
      have hqty : ∀ o ∈ (bookOf levels).orders, T.Fits o.quantity := by
        intro o ho
        obtain ⟨side, hside⟩ := mem_orders.mp ho
        obtain ⟨slot, hslot, rfl⟩ := List.mem_map.mp hside
        exact hc.fits side slot hslot
      refine ⟨hbecomes.book_eq ▸ hP.1.onInput hc.valid _ hevent, fun e he => ?_⟩
      rcases List.mem_append.mp he with he | he
      · exact hP.2 e he
      · exact onInput_fits hc.valid hP.1 hqty _ hevent e he)
    events hfits
  obtain ⟨-, rfl⟩ := ok_unique hrun hrun'
  exact hemitted

end MatchingEngine
