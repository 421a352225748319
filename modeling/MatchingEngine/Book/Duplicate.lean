import MatchingEngine.Book.Rejection

/-!
# Duplicate ids

The id of an incoming order is looked up only when a residue of it is about to rest. An order that
needs no rest, because it is filled, killed or sent as IOC, is not checked, and an order that crosses
the one whose id it carries trades with it and takes it out of the lookup first.
-/

namespace MatchingEngine

open Divisible PriorityBook

variable {T : SignedInt} {c : Clob} {levels : Side → List (List Slot)}

/-- The add is answered with DUP exactly if its id rests, and no trade is between an id and itself. -/
def DuplicateRejected (T : SignedInt) (c : Clob) (event : AddOrderEvent) : Prop :=
  ∀ c' emitted, c.onInput T (.addOrder event) = .ok (c', emitted) →
    (.orderRejected ⟨event.orderId, .duplicateOrderId⟩ ∈ emitted ↔
      ∃ o ∈ c.restingOrders .buy ++ c.restingOrders .sell, o.orderId = event.orderId) ∧
    ∀ trade, .trade trade ∈ emitted → trade.aggressiveOrderId ≠ trade.restingOrderId

section Step

variable {b : PriorityBook} {fillable : Bool} {event : AddOrderEvent}

theorem of_trade_mem_fillEvents {taker q : Int} {os : List RestingOrder} {trade : TradeEvent}
    (hmem : .trade trade ∈ fillEvents taker q os) :
    trade.aggressiveOrderId = taker ∧ ∃ o ∈ os, o.orderId = trade.restingOrderId := by
  obtain ⟨take, htake, hmem⟩ := List.mem_flatMap.mp hmem
  rcases List.mem_cons.mp hmem with heq | hmem
  · obtain rfl := OutputEvent.trade.inj heq
    have hmaker := (takes_in_order q os).subset (List.mem_map_of_mem htake)
    exact ⟨rfl, take.1, hmaker, rfl⟩
  · rw [List.mem_singleton] at hmem
    split at hmem <;> cases hmem

/-- The aggressor of a trade is the add, the other order one of its makers. -/
theorem of_trade_mem_addOrder {trade : TradeEvent}
    (hmem : .trade trade ∈ (b.addOrder fillable event).2) :
    trade.aggressiveOrderId = event.orderId ∧
      ∃ o ∈ b.makers event.side event.price, o.orderId = trade.restingOrderId := by
  have hlast : ∀ terminal : OutputEvent, terminal ≠ .trade trade →
      .trade trade ∈ fillEvents event.orderId event.quantity (b.makers event.side event.price)
        ++ [terminal] →
      trade.aggressiveOrderId = event.orderId ∧
        ∃ o ∈ b.makers event.side event.price, o.orderId = trade.restingOrderId := by
    intro terminal hne hmem
    rcases List.mem_append.mp hmem with hmem | hmem
    · exact of_trade_mem_fillEvents hmem
    · exact absurd (List.mem_singleton.mp hmem).symm hne
  refine @addOrder_cases (fun _ emitted => .trade trade ∈ emitted → _) b fillable event
    ?_ ?_ ?_ ?_ ?_ hmem
  · intro _ _ hmem
    cases List.mem_singleton.mp hmem
  · exact fun _ => hlast _ nofun
  · exact fun _ _ _ => hlast _ nofun
  · exact fun _ _ _ => hlast _ nofun
  · exact fun _ _ _ => hlast _ nofun

theorem duplicate_mem_of_gtc (hgtc : event.tif = .gtc)
    (hlt : total (b.makers event.side event.price) < event.quantity)
    (hdup : event.orderId ∈
      (b.sweep event.side event.price event.quantity).orders.map RestingOrder.orderId) :
    .orderRejected ⟨event.orderId, .duplicateOrderId⟩ ∈ (b.addOrder fillable event).2 := by
  apply addOrder_cases (P := fun _ emitted => OutputEvent.orderRejected _ ∈ emitted)
  · intro hfok
    rw [hgtc] at hfok
    cases hfok
  · intro hle
    exact absurd hlt hle.not_gt
  · intro _ _ _
    exact List.mem_append_right _ (List.mem_singleton_self _)
  · intro _ _ hnot
    exact absurd hdup hnot
  · intro _ _ hne
    exact absurd hgtc hne

/-- On the side of the specification: the id rests with no maker, and the order is GTC and outlasts
its makers. -/
theorem duplicate_iff (h : b.Valid) :
    ((.orderRejected ⟨event.orderId, .duplicateOrderId⟩ ∈ (b.addOrder fillable event).2 ↔
        ∃ o ∈ b.orders, o.orderId = event.orderId) ∧
      ∀ trade, .trade trade ∈ (b.addOrder fillable event).2 →
        trade.aggressiveOrderId ≠ trade.restingOrderId) ↔
    ∀ o ∈ b.orders, o.orderId = event.orderId → event.tif = .gtc ∧
      total (b.makers event.side event.price) < event.quantity ∧
        o ∉ b.makers event.side event.price := by
  constructor
  · intro ⟨hiff, _⟩ o ho hoid
    obtain ⟨hlt, hgtc, hdup, -⟩ := duplicate_of_rejected (hiff.mpr ⟨o, ho, hoid⟩)
    refine ⟨hgtc, hlt, ?_⟩
    obtain ⟨p, hp, hpid⟩ := List.mem_map.mp hdup
    obtain ⟨hmem, hnot⟩ := (mem_orders_sweep_iff h hlt.le).mp hp
    rwa [h.eq_of_orderId_eq ho hmem (hoid.trans hpid.symm)]
  · intro hcond
    refine ⟨⟨?_, ?_⟩, ?_⟩
    · intro hmem
      obtain ⟨-, -, hdup, -⟩ := duplicate_of_rejected hmem
      exact List.mem_map.mp (sweep_orderIds_subset h _ _ _ hdup)
    · intro ⟨o, ho, hoid⟩
      obtain ⟨hgtc, hlt, hnot⟩ := hcond o ho hoid
      apply duplicate_mem_of_gtc hgtc hlt
      exact List.mem_map.mpr ⟨o, (mem_orders_sweep_iff h hlt.le).mpr ⟨ho, hnot⟩, hoid⟩
    · intro trade hmem heq
      obtain ⟨htaker, o, ho, hoid⟩ := of_trade_mem_addOrder hmem
      have hrests : o ∈ b.orders :=
        mem_orders.mpr ⟨event.side.opposite, List.mem_of_mem_filter ho⟩
      exact (hcond o hrests (by omega)).2.2 ho

end Step

/-- **When duplicates are rejected.** A valid add is answered with DUP exactly if its id rests, and
trades with no order of its own id, as long as the order that rests under its id, if any, is not one
that it crosses, and the add is a GTC for more than all the orders that it crosses. -/
theorem run_duplicateRejected_iff (events : List InputEvent) (add : AddOrderEvent)
    (hfits : ∀ e ∈ events, e.Fits T) (hadd : (InputEvent.addOrder add).Fits T)
    (hid : 0 < add.orderId) (hqty : 0 < add.quantity) (hprice : 0 < add.price) :
    ∃ c emitted, Clob.run T {} events = .ok (c, emitted) ∧
      (DuplicateRejected T c add ↔
        ∀ o ∈ c.restingOrders .buy ++ c.restingOrders .sell, o.orderId = add.orderId →
          add.tif = .gtc ∧ total (c.makers add) < add.quantity ∧ o ∉ c.makers add) := by
  obtain ⟨c, emitted, levels, hrun, hc⟩ := run_represents events hfits
  refine ⟨c, emitted, hrun, ?_⟩
  obtain ⟨c', levels', hstep, -⟩ := hc.addOrder hid hqty hprice hadd.2.1
  have hinput : c.onInput T (.addOrder add) = .ok (c',
      ((bookOf levels).addOrder (c.fillableAtLimit T add.side add) add).2) := by
    simp only [Clob.onInput, Clob.onAddOrder, if_neg (not_le.mpr hid), if_neg (not_le.mpr hqty),
      if_neg (not_le.mpr hprice), hstep]
  rw [DuplicateRejected, hc.orders_eq, hc.makers_eq, ← duplicate_iff hc.valid]
  constructor
  · intro hrejected
    exact hrejected c' _ hinput
  · intro hrejected c'' emitted' hinput'
    obtain ⟨rfl, rfl⟩ := ok_unique hinput' hinput
    exact hrejected

theorem run_duplicateRejected_iff_gtc :
    ∃ c emitted, Clob.run .int64 {} [.addOrder ⟨1, .buy, 5, 100, .gtc⟩] = .ok (c, emitted) ∧
      (DuplicateRejected .int64 c ⟨1, .buy, 3, 99, .gtc⟩ ↔
        ∀ o ∈ c.restingOrders .buy ++ c.restingOrders .sell, o.orderId = 1 →
          Tif.gtc = .gtc ∧ total (c.makers ⟨1, .buy, 3, 99, .gtc⟩) < 3 ∧
            o ∉ c.makers ⟨1, .buy, 3, 99, .gtc⟩) :=
  run_duplicateRejected_iff _ ⟨1, .buy, 3, 99, .gtc⟩ (by decide +kernel) (by decide +kernel)
    (by decide) (by decide) (by decide)

/-- A buy trades with the resting sell that has its id. -/
theorem not_duplicateRejected :
    ∃ c emitted, Clob.run .int64 {} [.addOrder ⟨1, .sell, 5, 100, .gtc⟩] = .ok (c, emitted) ∧
      ¬ DuplicateRejected .int64 c ⟨1, .buy, 5, 100, .gtc⟩ := by
  obtain ⟨c, emitted, levels, hrun, hc⟩ := run_represents (T := .int64)
    [.addOrder ⟨1, .sell, 5, 100, .gtc⟩] (by decide +kernel)
  obtain ⟨c', levels', hinput, -⟩ := hc.onInput
    (show InputEvent.Fits .int64 (.addOrder ⟨1, .buy, 5, 100, .gtc⟩) by decide +kernel)
  refine ⟨c, emitted, hrun, fun hrejected => ?_⟩
  have hfirst : (Clob.run .int64 {} [.addOrder ⟨1, .sell, 5, 100, .gtc⟩]).map Prod.snd
      = .ok [.orderResting ⟨1, 0, 5⟩] := by
    decide +kernel
  have hall : (Clob.run .int64 {} ([.addOrder ⟨1, .sell, 5, 100, .gtc⟩]
      ++ [.addOrder ⟨1, .buy, 5, 100, .gtc⟩])).map Prod.snd
        = .ok ([.orderResting ⟨1, 0, 5⟩]
          ++ [.trade ⟨1, 1, 5⟩, .orderFilled ⟨1, 5⟩, .orderFilled ⟨1, 5⟩]) := by
    decide +kernel
  have hemitted := Clob.emitted_of_runs hrun hinput hfirst hall
  apply (hrejected c' _ hinput).2 ⟨1, 1, 5⟩
  · rw [hemitted]
    decide
  · rfl

end MatchingEngine
