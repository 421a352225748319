import MatchingEngine.Book.Run

/-!
# The shape of what is emitted

The events for one input are a row of maker fills, each a trade followed by the maker's new state,
and then one terminal event for the input itself. All but the last maker are filled.
-/

namespace MatchingEngine

open Divisible PriorityBook

/-- What a maker is told: how much of it traded, and how much still rests. -/
structure MakerFill where
  orderId : Int
  quantity : Int
  remaining : Int
  deriving DecidableEq, Repr

/-- The pair of events of a maker fill. -/
def MakerFill.events (taker : Int) (fill : MakerFill) : List OutputEvent :=
  [.trade ⟨taker, fill.orderId, fill.quantity⟩,
    if fill.remaining = 0 then .orderFilled ⟨fill.orderId, fill.quantity⟩
    else .orderResting ⟨fill.orderId, fill.quantity, fill.remaining⟩]

/-- A terminal event of an order, with sensible quantities. -/
inductive Terminal (orderId : Int) : OutputEvent → Prop
  | resting {filled rest : Int} (hfilled : 0 ≤ filled) (hrest : 0 < rest) :
      Terminal orderId (.orderResting ⟨orderId, filled, rest⟩)
  | filled {filled : Int} (hfilled : 0 ≤ filled) : Terminal orderId (.orderFilled ⟨orderId, filled⟩)
  | cancelled {filled cancelled : Int} {cause : CancelCause} (hfilled : 0 ≤ filled)
      (hcancelled : 0 < cancelled) :
      Terminal orderId (.orderCancelled ⟨orderId, filled, cancelled, cause⟩)
  | rejected (rejectCode : RejectCode) : Terminal orderId (.orderRejected ⟨orderId, rejectCode⟩)

structure EventShape (orderId : Int) (fills : List MakerFill) (terminal : OutputEvent)
    (events : List OutputEvent) : Prop where
  events_eq : events = fills.flatMap (MakerFill.events orderId) ++ [terminal]
  isTerminal : Terminal orderId terminal
  quantities : ∀ fill ∈ fills, 0 < fill.quantity ∧ 0 ≤ fill.remaining
  nodup : (fills.map MakerFill.orderId).Nodup
  last_of_remaining : ∀ before fill after, fills = before ++ fill :: after → 0 < fill.remaining →
    after = [] ∧ ∃ filled, terminal = .orderFilled ⟨orderId, filled⟩

/-- The maker fill that a take is announced as. -/
def makerFill (take : RestingOrder × Int) : MakerFill :=
  ⟨take.1.orderId, take.2, take.1.quantity - take.2⟩

theorem makerFill_events (taker : Int) (take : RestingOrder × Int) :
    (makerFill take).events taker = takeEvents taker take := by
  have hiff : take.1.quantity - take.2 = 0 ↔ take.2 = take.1.quantity := by omega
  simp only [makerFill, MakerFill.events, takeEvents, hiff]

theorem fillEvents_eq (taker q : Int) (os : List RestingOrder) :
    fillEvents taker q os = ((takes q os).map makerFill).flatMap (MakerFill.events taker) := by
  rw [List.flatMap_map, fillEvents]
  simp only [makerFill_events]

variable {b : PriorityBook}

/-- An input that trades nothing. -/
theorem eventShape_singleton {orderId : Int} {terminal : OutputEvent} (h : Terminal orderId terminal) :
    EventShape orderId [] terminal [terminal] :=
  ⟨rfl, h, by simp, by simp, by simp⟩

/-- An input that trades: the terminal is FIL if the makers hold more than is demanded. -/
theorem eventShape_fills (h : b.Valid) {side : Side} {limit orderId q : Int} {terminal : OutputEvent}
    (hterminal : Terminal orderId terminal)
    (hfilled : q < total (b.makers side limit) → ∃ filled, terminal = .orderFilled ⟨orderId, filled⟩) :
    EventShape orderId ((takes q (b.makers side limit)).map makerFill) terminal
      (fillEvents orderId q (b.makers side limit) ++ [terminal]) := by
  have hpositive := h.positive_makers side limit
  refine ⟨by rw [fillEvents_eq], hterminal, ?_, ?_, ?_⟩
  · intro fill hfill
    obtain ⟨take, htake, rfl⟩ := List.mem_map.mp hfill
    obtain ⟨-, hpos, hle⟩ := mem_takes hpositive htake
    exact ⟨hpos, by simpa [makerFill] using hle⟩
  · have hsublist : (b.makers side limit).Sublist b.orders := by
      apply (crossed_sublist ..).trans
      cases side
      · exact List.sublist_append_right ..
      · exact List.sublist_append_left ..
    have hnodup : ((b.makers side limit).map RestingOrder.orderId).Nodup :=
      h.nodup.sublist (hsublist.map _)
    have hprefix := (takes_in_order q (b.makers side limit)).sublist.map RestingOrder.orderId
    rw [List.map_map] at hprefix ⊢
    exact hnodup.sublist hprefix
  · intro before fill after hsplit hremaining
    obtain ⟨before', rest, hbefore, rfl, hrest⟩ := List.map_eq_append_iff.mp hsplit
    obtain ⟨take, after', rfl, rfl, rfl⟩ := List.map_eq_cons_iff.mp hrest
    obtain ⟨hafter, hq⟩ := takes_last_of_lt hpositive hbefore
      (by simpa [makerFill] using hremaining)
    exact ⟨by rw [hafter, List.map_nil], hfilled hq⟩

theorem addOrder_shape (h : b.Valid) (fillable : Bool) {event : AddOrderEvent}
    (hqty : 0 < event.quantity) :
    ∃ fills terminal, EventShape event.orderId fills terminal (b.addOrder fillable event).2 := by
  have hnonneg := (h.positive_makers event.side event.price).total_nonneg
  apply addOrder_cases
    (P := fun _ emitted => ∃ fills terminal, EventShape event.orderId fills terminal emitted)
  · intro _ _
    exact ⟨_, _, eventShape_singleton (.cancelled (le_refl 0) hqty)⟩
  · intro _
    exact ⟨_, _, eventShape_fills h (.filled hqty.le) fun _ => ⟨_, rfl⟩⟩
  · intro hlt _ _
    exact ⟨_, _, eventShape_fills h (.rejected _) fun hgt => absurd hgt hlt.not_gt⟩
  · intro hlt _ _
    exact ⟨_, _, eventShape_fills h (.resting hnonneg (by omega)) fun hgt => absurd hgt hlt.not_gt⟩
  · intro cause hlt _
    exact ⟨_, _, eventShape_fills h (.cancelled hnonneg (by omega)) fun hgt => absurd hgt hlt.not_gt⟩

theorem onAddOrder_shape (h : b.Valid) (fillable : Bool) (event : AddOrderEvent) :
    ∃ fills terminal, EventShape event.orderId fills terminal (b.onAddOrder fillable event).2 := by
  apply onAddOrder_cases
    (P := fun _ emitted => ∃ fills terminal, EventShape event.orderId fills terminal emitted)
  · intro rejectCode _
    exact ⟨_, _, eventShape_singleton (.rejected rejectCode)⟩
  · intro haccepted
    exact addOrder_shape h fillable haccepted.2.1

theorem onCancelOrder_shape (h : b.Valid) (event : CancelOrderEvent) :
    ∃ terminal, Terminal event.orderId terminal ∧ (b.onCancelOrder event).2 = [terminal] := by
  apply onCancelOrder_cases
    (P := fun _ emitted => ∃ terminal, Terminal event.orderId terminal ∧ emitted = [terminal])
  · intro rejectCode
    exact ⟨_, .rejected rejectCode, rfl⟩
  · intro o ho hoid
    obtain ⟨side, hside⟩ := mem_orders.mp ho
    rw [hoid]
    exact ⟨_, .cancelled (le_refl 0) (h.positive side o hside), rfl⟩

/-- **Pairs, and then one terminal event.** -/
theorem run_onInput_shape (events : List InputEvent) :
    ∃ c emitted, Clob.run .unbounded {} events = .ok (c, emitted) ∧
      (∀ event : AddOrderEvent, ∃ c' fills terminal emitted',
        c.onInput .unbounded (.addOrder event) = .ok (c', emitted') ∧
          EventShape event.orderId fills terminal emitted') ∧
      ∀ event : CancelOrderEvent, ∃ c' terminal,
        c.onInput .unbounded (.cancelOrder event) = .ok (c', [terminal]) ∧
          Terminal event.orderId terminal := by
  obtain ⟨c, emitted, levels, hrun, hc⟩ := run_represents events fun e _ => e.fits_unbounded
  refine ⟨c, emitted, hrun, ?_, ?_⟩
  · intro event
    obtain ⟨c', levels', hinput, -⟩ := hc.onInput (InputEvent.fits_unbounded (.addOrder event))
    obtain ⟨fills, terminal, hshape⟩ := onAddOrder_shape hc.valid
      (c.probe .unbounded (.addOrder event)) event
    exact ⟨c', fills, terminal, _, hinput, hshape⟩
  · intro event
    obtain ⟨c', levels', hinput, -⟩ := hc.onInput (InputEvent.fits_unbounded (.cancelOrder event))
    obtain ⟨terminal, hterminal, heq⟩ := onCancelOrder_shape hc.valid event
    rw [PriorityBook.onInput, heq] at hinput
    exact ⟨c', terminal, hinput, hterminal⟩

end MatchingEngine
