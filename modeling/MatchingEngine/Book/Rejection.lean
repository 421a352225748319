import MatchingEngine.Book.Run
import MatchingEngine.Book.View

/-!
# Rejections

A rejection is meant to be the only event of its input and to leave the book as it was. All but one
are decided before anything is touched. A duplicate id is found only after matching, when the residue
is about to rest: if the order has traded by then, the trades stand and are followed by the rejection.
-/

namespace MatchingEngine

open Divisible PriorityBook

variable {T : SignedInt} {c c' : Clob} {levels : Side → List (List Slot)}

theorem Represents.SameBook.refl (c : Clob) : Represents.SameBook c c := ⟨rfl, rfl, rfl, fun _ _ => rfl⟩

/-- A rejection of this input is its only event and leaves the book as it is. -/
def RejectionIsolated (T : SignedInt) (c : Clob) (event : InputEvent) : Prop :=
  ∀ c' emitted, c.onInput T event = .ok (c', emitted) →
    ∀ rejection, OutputEvent.orderRejected rejection ∈ emitted →
      emitted = [.orderRejected rejection] ∧ Represents.SameBook c c'

/-- The resting orders that an add trades with, as far as its quantity reaches. -/
def Clob.makers (c : Clob) (event : AddOrderEvent) : List RestingOrder :=
  crossed event.side.opposite event.price (c.restingOrders event.side.opposite)

/-- A valid GTC add that trades with everything it crosses, and with the residue left then meets a
resting order of its own id. -/
structure TradesThenDuplicate (c : Clob) (event : AddOrderEvent) : Prop where
  orderId_pos : 0 < event.orderId
  quantity_pos : 0 < event.quantity
  price_pos : 0 < event.price
  gtc : event.tif = .gtc
  trades : c.makers event ≠ []
  residue : total (c.makers event) < event.quantity
  duplicate : ∃ o ∈ c.restingOrders .buy ++ c.restingOrders .sell,
    o.orderId = event.orderId ∧ o ∉ c.makers event

theorem rejectionIsolated_of_unchanged {event : InputEvent} {orderId : Int} {rejectCode : RejectCode}
    (hstep : c.onInput T event = .ok (c, [.orderRejected ⟨orderId, rejectCode⟩])) :
    RejectionIsolated T c event := by
  intro c' emitted hinput rejection hmem
  obtain ⟨rfl, rfl⟩ := ok_unique hinput hstep
  simp only [List.mem_singleton, OutputEvent.orderRejected.injEq] at hmem
  exact ⟨by rw [hmem], Represents.SameBook.refl _⟩

theorem rejectionIsolated_of_not_mem {event : InputEvent} {emitted : List OutputEvent}
    (hstep : c.onInput T event = .ok (c', emitted))
    (hnot : ∀ rejection, OutputEvent.orderRejected rejection ∉ emitted) :
    RejectionIsolated T c event := by
  intro c'' emitted' hinput rejection hmem
  obtain ⟨rfl, rfl⟩ := ok_unique hinput hstep
  exact absurd hmem (hnot rejection)

/-- An add that passes the field checks is rejected only where its residue does not rest. -/
theorem duplicate_of_rejected {b : PriorityBook} {fillable : Bool} {event : AddOrderEvent}
    {rejection : OrderRejectedEvent}
    (hmem : OutputEvent.orderRejected rejection ∈ (b.addOrder fillable event).2) :
    total (b.makers event.side event.price) < event.quantity ∧ event.tif = .gtc ∧
      event.orderId ∈
        (b.sweep event.side event.price event.quantity).orders.map RestingOrder.orderId ∧
      rejection = ⟨event.orderId, .duplicateOrderId⟩ := by
  refine @addOrder_cases (fun _ emitted => OutputEvent.orderRejected rejection ∈ emitted → _)
    b fillable event ?_ ?_ ?_ ?_ ?_ hmem
  · intro _ _ hmem
    simp at hmem
  · intro _ hmem
    simp at hmem
  · intro hlt hgtc hdup hmem
    exact ⟨hlt, hgtc, hdup, by simpa using hmem⟩
  · intro _ _ _ hmem
    simp at hmem
  · intro _ _ _ hmem
    simp at hmem

namespace Represents

theorem makers_eq (h : Represents T c levels) (event : AddOrderEvent) :
    c.makers event = (bookOf levels).makers event.side event.price := by
  rw [Clob.makers, h.restingOrders_eq]
  rfl

theorem orders_eq (h : Represents T c levels) :
    c.restingOrders .buy ++ c.restingOrders .sell = (bookOf levels).orders := by
  rw [h.restingOrders_eq, h.restingOrders_eq]
  rfl

/-- Nothing is touched where nothing is crossed. -/
theorem matchAgainst_of_makers_nil (h : Represents T c levels) {event : AddOrderEvent}
    (hnil : (bookOf levels).makers event.side event.price = []) :
    MatchingEngine.matchAgainst T (c.sideBook event.side.opposite)
        ⟨c.arena, c.lookup, event, 0, []⟩
      = .ok (c.sideBook event.side.opposite, ⟨c.arena, c.lookup, event, 0, []⟩) := by
  rw [MatchingEngine.matchAgainst, matchAgainstLoop]
  split
  · split
    · rfl
    · case h_2 price level hbest =>
      have hcross : ¬ Crosses event.side.opposite event.price price := by
        intro hcross
        obtain ⟨o, ho, hprice⟩ := h.exists_order_at_best hbest
        rw [← hprice] at hcross
        have hmem : o ∈ (bookOf levels).makers event.side event.price :=
          List.mem_filter.mpr ⟨ho, by simpa using hcross⟩
        rw [hnil] at hmem
        exact List.not_mem_nil hmem
      rw [if_neg hcross]
      rfl
  · rfl

theorem setSideBook_self (c : Clob) (side : Side) :
    Clob.setSideBook ⟨c.bids, c.asks, c.lookup, c.arena⟩ (c.sideBook side) = c := by
  cases side <;> rfl

/-- A duplicate that crosses nothing is turned away without a trace. -/
theorem addOrder_of_makers_nil (h : Represents T c levels) {event : AddOrderEvent}
    (hgtc : event.tif = .gtc) (hqty : event.quantity ≠ 0)
    (hnil : (bookOf levels).makers event.side event.price = [])
    (hdup : event.orderId ∈ (bookOf levels).orders.map RestingOrder.orderId) :
    ∃ c', c.addOrder T event.side event =
        .ok (c', [.orderRejected ⟨event.orderId, .duplicateOrderId⟩]) ∧ SameBook c c' := by
  obtain ⟨c', hrest, hsame, -⟩ := h.restOrder_duplicate event.side event hdup
  refine ⟨c', ?_, hsame⟩
  have hkill : ¬ (event.tif = .fok ∧ c.fillableAtLimit T event.side event = false) := by
    simp [hgtc]
  simp only [Clob.addOrder, if_neg hkill, h.matchAgainst_of_makers_nil hnil, ok_bind,
    if_neg hqty, if_pos hgtc, setSideBook_self, hrest]
  rfl

/-- Where the condition fails the trades stand in front of the rejection. -/
theorem onInput_of_tradesThenDuplicate (h : Represents T c levels) {event : AddOrderEvent}
    (hfits : InputEvent.Fits T (.addOrder event)) (hdup : TradesThenDuplicate c event) :
    ∃ c', c.onInput T (.addOrder event) = .ok (c',
        fillEvents event.orderId event.quantity (c.makers event)
          ++ [.orderRejected ⟨event.orderId, .duplicateOrderId⟩]) ∧
      fillEvents event.orderId event.quantity (c.makers event) ≠ [] := by
  obtain ⟨c', levels', hinput, -⟩ := h.onInput hfits
  have hid := hdup.orderId_pos
  have hqty := hdup.quantity_pos
  have hprice := hdup.price_pos
  have hresidue := hdup.residue
  have hmakers := h.makers_eq event
  have hmem : event.orderId ∈ ((bookOf levels).sweep event.side event.price
      event.quantity).orders.map RestingOrder.orderId := by
    obtain ⟨o, ho, heq, hnot⟩ := hdup.duplicate
    rw [h.orders_eq] at ho
    rw [hmakers] at hnot hresidue
    exact List.mem_map.mpr ⟨o, (mem_orders_sweep_iff h.valid hresidue.le).mpr ⟨ho, hnot⟩, heq⟩
  rw [hmakers] at hresidue ⊢
  refine ⟨c', ?_, ?_⟩
  · have hkill : ¬ (event.tif = .fok ∧ c.probe T (.addOrder event) = false) := by
      simp [hdup.gtc]
    have hzero : event.quantity -
        min event.quantity (total ((bookOf levels).makers event.side event.price)) ≠ 0 := by
      omega
    rw [hinput]
    simp only [PriorityBook.onInput, PriorityBook.onAddOrder, PriorityBook.addOrder,
      if_neg (not_le.mpr hid), if_neg (not_le.mpr hqty), if_neg (not_le.mpr hprice), if_neg hkill,
      if_neg hzero, if_pos hdup.gtc, if_pos hmem]
  · obtain ⟨m, ms, hcons⟩ := List.exists_cons_of_ne_nil (hmakers ▸ hdup.trades)
    rw [hcons, fillEvents, takes, if_pos hqty, List.flatMap_cons, takeEvents]
    simp

/-- A cancel is rejected before anything is touched. -/
theorem rejectionIsolated_cancel (h : Represents T c levels) {event : CancelOrderEvent}
    (hfits : InputEvent.Fits T (.cancelOrder event)) : RejectionIsolated T c (.cancelOrder event) := by
  by_cases hid : event.orderId ≤ 0
  · exact rejectionIsolated_of_unchanged (if_pos hid)
  cases hlookup : c.lookup event.orderId with
  | none =>
    have hstep : c.onInput T (.cancelOrder event)
        = .ok (c, [.orderRejected ⟨event.orderId, .unknownOrderId⟩]) := by
      simp only [Clob.onInput, Clob.onCancelOrder, if_neg hid, hlookup]
      rfl
    exact rejectionIsolated_of_unchanged hstep
  | some p =>
    obtain ⟨c', levels', hstep, -⟩ := h.onInput hfits
    apply rejectionIsolated_of_not_mem hstep
    intro rejection
    have hmem := h.lookup_isSome_iff.mp (Option.isSome_of_eq_some hlookup)
    obtain ⟨o, ho, hoid⟩ := List.mem_map.mp hmem
    have hfind := h.valid.find?_eq_some_iff.mpr ⟨ho, hoid⟩
    simp [PriorityBook.onInput, PriorityBook.onCancelOrder, hid, hfind]

/-- An add that passes the field checks: the rejection is for a duplicate, and if nothing traded the
book is untouched. -/
theorem rejectionIsolated_valid (h : Represents T c levels) {event : AddOrderEvent}
    (hfits : InputEvent.Fits T (.addOrder event)) (hid : 0 < event.orderId)
    (hqty : 0 < event.quantity) (hprice : 0 < event.price) (hnot : ¬ TradesThenDuplicate c event) :
    RejectionIsolated T c (.addOrder event) := by
  intro c' emitted hinput rejection hmem
  obtain ⟨c'', levels', hstep, -⟩ := h.addOrder hid hqty hprice hfits.2.1
  simp only [Clob.onInput, Clob.onAddOrder, if_neg (not_le.mpr hid), if_neg (not_le.mpr hqty),
    if_neg (not_le.mpr hprice)] at hinput
  obtain ⟨-, hemitted⟩ := ok_unique hinput hstep
  rw [hemitted] at hmem
  obtain ⟨hlt, hgtc, hdup, rfl⟩ := duplicate_of_rejected hmem
  -- the makers can only be none, since the condition excludes all others
  have hnil : (bookOf levels).makers event.side event.price = [] := by
    by_contra hne
    apply hnot
    refine ⟨hid, hqty, hprice, hgtc, ?_, ?_, ?_⟩
    · rwa [h.makers_eq]
    · rwa [h.makers_eq]
    · obtain ⟨o, ho, hoid⟩ := List.mem_map.mp hdup
      obtain ⟨hmem, hnotMaker⟩ := (mem_orders_sweep_iff h.valid hlt.le).mp ho
      rw [h.orders_eq, h.makers_eq]
      exact ⟨o, hmem, hoid, hnotMaker⟩
  obtain ⟨c₁, hsame, hbook⟩ := h.addOrder_of_makers_nil hgtc hqty.ne' hnil
    (sweep_orderIds_subset h.valid _ _ _ hdup)
  obtain ⟨rfl, rfl⟩ := ok_unique hinput hsame
  exact ⟨rfl, hbook⟩

theorem rejectionIsolated_iff (h : Represents T c levels) {event : InputEvent}
    (hfits : event.Fits T) :
    RejectionIsolated T c event ↔ ¬ ∃ add, event = .addOrder add ∧ TradesThenDuplicate c add := by
  constructor
  · intro hisolated ⟨add, heq, hdup⟩
    subst heq
    obtain ⟨c', hinput, hne⟩ := h.onInput_of_tradesThenDuplicate hfits hdup
    obtain ⟨honly, -⟩ := hisolated c' _ hinput _ (List.mem_append_right _ (List.mem_singleton_self _))
    exact hne (List.append_left_eq_self.mp honly)
  · intro hnot
    cases event with
    | shutdown =>
      have hstep : c.onInput T .shutdown = .ok (c, []) := rfl
      exact rejectionIsolated_of_not_mem hstep fun _ => List.not_mem_nil
    | cancelOrder event => exact h.rejectionIsolated_cancel hfits
    | addOrder event =>
      by_cases hid : event.orderId ≤ 0
      · exact rejectionIsolated_of_unchanged (if_pos hid)
      by_cases hqty : event.quantity ≤ 0
      · exact rejectionIsolated_of_unchanged ((if_neg hid).trans (if_pos hqty))
      by_cases hprice : event.price ≤ 0
      · exact rejectionIsolated_of_unchanged
          ((if_neg hid).trans ((if_neg hqty).trans (if_pos hprice)))
      · apply h.rejectionIsolated_valid hfits (by omega) (by omega) (by omega)
        intro hdup
        exact hnot ⟨event, rfl, hdup⟩

end Represents

/-- **When a rejection is isolated.** -/
theorem run_rejectionIsolated_iff (events : List InputEvent) (event : InputEvent)
    (hfits : ∀ e ∈ events, e.Fits .int64) (hevent : event.Fits .int64) :
    ∃ c emitted, Clob.run .int64 {} events = .ok (c, emitted) ∧
      (RejectionIsolated .int64 c event ↔
        ¬ ∃ add, event = .addOrder add ∧ TradesThenDuplicate c add) := by
  obtain ⟨c, emitted, levels, hrun, hc⟩ := run_represents events hfits
  exact ⟨c, emitted, hrun, hc.rejectionIsolated_iff hevent⟩

theorem run_rejectionIsolated_iff_cancel :
    ∃ c emitted, Clob.run .int64 {} [.addOrder ⟨1, .sell, 5, 100, .gtc⟩] = .ok (c, emitted) ∧
      (RejectionIsolated .int64 c (.cancelOrder ⟨2⟩) ↔
        ¬ ∃ add, InputEvent.cancelOrder ⟨2⟩ = .addOrder add ∧ TradesThenDuplicate c add) :=
  run_rejectionIsolated_iff _ _ (by decide +kernel) (by decide +kernel)

/-- A buy of the id of a resting buy trades away a sell before it is rejected. -/
theorem not_rejectionIsolated :
    ∃ c emitted, Clob.run .int64 {} [.addOrder ⟨1, .sell, 5, 100, .gtc⟩,
        .addOrder ⟨2, .buy, 5, 90, .gtc⟩] = .ok (c, emitted) ∧
      ¬ RejectionIsolated .int64 c (.addOrder ⟨2, .buy, 10, 100, .gtc⟩) := by
  obtain ⟨c, emitted, levels, hrun, hc⟩ := run_represents (T := .int64)
    [.addOrder ⟨1, .sell, 5, 100, .gtc⟩, .addOrder ⟨2, .buy, 5, 90, .gtc⟩] (by decide +kernel)
  obtain ⟨c', levels', hinput, -⟩ := hc.onInput
    (show InputEvent.Fits .int64 (.addOrder ⟨2, .buy, 10, 100, .gtc⟩) by decide +kernel)
  refine ⟨c, emitted, hrun, ?_⟩
  intro hisolated
  have hfirst : (Clob.run .int64 {} [.addOrder ⟨1, .sell, 5, 100, .gtc⟩,
      .addOrder ⟨2, .buy, 5, 90, .gtc⟩]).map Prod.snd
        = .ok [.orderResting ⟨1, 0, 5⟩, .orderResting ⟨2, 0, 5⟩] := by
    decide +kernel
  have hall : (Clob.run .int64 {} ([.addOrder ⟨1, .sell, 5, 100, .gtc⟩,
      .addOrder ⟨2, .buy, 5, 90, .gtc⟩] ++ [.addOrder ⟨2, .buy, 10, 100, .gtc⟩])).map Prod.snd
        = .ok ([.orderResting ⟨1, 0, 5⟩, .orderResting ⟨2, 0, 5⟩] ++ [.trade ⟨2, 1, 5⟩,
          .orderFilled ⟨1, 5⟩, .orderRejected ⟨2, .duplicateOrderId⟩]) := by
    decide +kernel
  have hemitted := Clob.emitted_of_runs hrun hinput hfirst hall
  obtain ⟨honly, -⟩ := hisolated c' _ hinput ⟨2, .duplicateOrderId⟩ (by rw [hemitted]; decide)
  rw [hemitted] at honly
  exact absurd honly (by decide)

end MatchingEngine
