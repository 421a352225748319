import MatchingEngine.Book.ImmediateOrCancel

/-!
# Where trades come from

An order that rests came in as an accepted GTC add, and with no smaller a quantity. So whatever trade a
run announces, there are two adds behind it: the one that was handled when it was announced, and an
earlier one of the other side, each with a limit that the other's price is within.
-/

namespace MatchingEngine

open Divisible PriorityBook

variable {T : SignedInt} {b : PriorityBook}

/-- The order rests from this add. -/
structure RestsFrom (o : RestingOrder) (maker : AddOrderEvent) : Prop where
  accepted : maker.Accepted
  tif : maker.tif = .gtc
  key_eq : (maker.orderId, maker.side, maker.price) = key o
  quantity_le : o.quantity ≤ maker.quantity

/-- Every resting order came in as one of these events. -/
def Backed (events : List InputEvent) (b : PriorityBook) : Prop :=
  ∀ o ∈ b.orders, ∃ maker, .addOrder maker ∈ events ∧ RestsFrom o maker

/-- The trade is one between these two adds, within the limits of both and for no more than either. -/
structure Agreed (taker maker : AddOrderEvent) (trade : TradeEvent) : Prop where
  takerAccepted : taker.Accepted
  makerAccepted : maker.Accepted
  tif : maker.tif = .gtc
  side : maker.side = taker.side.opposite
  aggressiveOrderId : trade.aggressiveOrderId = taker.orderId
  restingOrderId : trade.restingOrderId = maker.orderId
  crosses : Crosses maker.side taker.price maker.price
  positive : 0 < trade.quantity
  quantity_le : trade.quantity ≤ taker.quantity ∧ trade.quantity ≤ maker.quantity

/-! ### What rests -/

theorem RestsFrom.of_key {o p : RestingOrder} {maker : AddOrderEvent} (h : RestsFrom p maker)
    (hkey : key p = key o) (hle : o.quantity ≤ p.quantity) : RestsFrom o maker where
  accepted := h.accepted
  tif := h.tif
  key_eq := h.key_eq.trans hkey
  quantity_le := hle.trans h.quantity_le

theorem Backed.mono {events : List InputEvent} (h : Backed events b) {b' : PriorityBook}
    (hmem : ∀ o ∈ b'.orders, ∃ p ∈ b.orders, key p = key o ∧ o.quantity ≤ p.quantity)
    (event : InputEvent) : Backed (events ++ [event]) b' := by
  intro o ho
  obtain ⟨p, hp, hkey, hle⟩ := hmem o ho
  obtain ⟨maker, hmaker, hrests⟩ := h p hp
  exact ⟨maker, List.mem_append_left _ hmaker, hrests.of_key hkey hle⟩

theorem mem_orders_sweep (h : b.Valid) (side : Side) (limit q : Int) :
    ∀ o ∈ (b.sweep side limit q).orders, ∃ p ∈ b.orders, key p = key o ∧ o.quantity ≤ p.quantity := by
  intro o ho
  obtain ⟨s, hs⟩ := mem_orders.mp ho
  rcases Side.eq_or_eq_opposite side s with rfl | rfl
  · rw [sweep_same] at hs
    exact ⟨o, mem_orders.mpr ⟨_, hs⟩, rfl, le_refl _⟩
  · rw [sweep_opposite] at hs
    rcases List.mem_append.mp hs with hleft | hstands
    · obtain ⟨p, hp, hkey, hle⟩ := exists_map_eq_of_mem_left (g := key) (fun _ _ => rfl)
        (h.positive_makers side limit) hleft
      exact ⟨p, mem_orders.mpr ⟨_, (crossed_sublist ..).subset hp⟩, hkey, hle⟩
    · exact ⟨o, mem_orders.mpr ⟨_, List.mem_of_mem_filter hstands⟩, rfl, le_refl _⟩

theorem Backed.onInput {events : List InputEvent} (h : Backed events b) (hb : b.Valid) (fillable : Bool)
    (event : InputEvent) : Backed (events ++ [event]) (b.onInput fillable event).1 := by
  have hself : Backed (events ++ [event]) b := h.mono (fun o ho => ⟨o, ho, rfl, le_refl _⟩) event
  cases event with
  | shutdown => exact hself
  | cancelOrder event =>
    apply onCancelOrder_cases (P := fun b' _ => Backed (events ++ [InputEvent.cancelOrder event]) b')
    · exact fun _ => hself
    · intro o _ _
      refine h.mono (fun p hp => ?_) _
      rw [orders_withdraw] at hp
      exact ⟨p, List.mem_of_mem_filter hp, rfl, le_refl _⟩
  | addOrder event =>
    have hswept := h.mono (mem_orders_sweep hb event.side event.price event.quantity) (.addOrder event)
    apply onAddOrder_cases (P := fun b' _ => Backed (events ++ [InputEvent.addOrder event]) b')
    · exact fun _ _ => hself
    intro haccepted
    apply addOrder_cases (P := fun b' _ => Backed (events ++ [InputEvent.addOrder event]) b')
    · exact fun _ _ => hself
    · exact fun _ => hswept
    · exact fun _ _ _ => hswept
    · intro _ hgtc _ o ho
      rcases List.mem_cons.mp ((rest_orders_perm ..).mem_iff.mp ho) with rfl | ho
      · refine ⟨event, by simp, haccepted, hgtc, rfl, ?_⟩
        exact Int.sub_le_self _ (hb.positive_makers event.side event.price).total_nonneg
      · exact hswept o ho
    · exact fun _ _ _ => hswept

theorem run_backed (events : List InputEvent) (hfits : ∀ e ∈ events, e.Fits T) :
    ∃ c emitted levels, Clob.run T {} events = .ok (c, emitted) ∧ Represents T c levels ∧
      Backed events (bookOf levels) :=
  run_induction (P := fun events _ _ levels => Backed events (bookOf levels))
    (by simp [Backed, bookOf, ordersOf, orders])
    (fun hc h _ hbecomes => hbecomes.book_eq ▸ h.onInput hc.valid _ _) events hfits

/-! ### What trades -/

theorem mem_trades_fills {taker q : Int} {os : List RestingOrder} {terminal : OutputEvent}
    {trade : TradeEvent} (hterminal : terminal.trade? = none)
    (hmem : trade ∈ trades (fillEvents taker q os ++ [terminal])) :
    ∃ take ∈ takes q os, trade = ⟨taker, take.1.orderId, take.2⟩ := by
  obtain ⟨e, he, htrade⟩ := List.mem_filterMap.mp hmem
  rcases List.mem_append.mp he with he | he
  · obtain ⟨take, htake, he⟩ := List.mem_flatMap.mp he
    rcases List.mem_cons.mp he with rfl | he
    · exact ⟨take, htake, (Option.some.inj htrade).symm⟩
    · rw [List.mem_singleton.mp he] at htrade
      split at htrade
      · cases htrade
      · cases htrade
  · rw [List.mem_singleton.mp he, hterminal] at htrade
    cases htrade

theorem mem_trades_addOrder {fillable : Bool} {event : AddOrderEvent} {trade : TradeEvent}
    (hmem : trade ∈ trades (b.addOrder fillable event).2) :
    ∃ take ∈ takes event.quantity (b.makers event.side event.price),
      trade = ⟨event.orderId, take.1.orderId, take.2⟩ := by
  revert hmem
  apply addOrder_cases (P := fun _ emitted => trade ∈ trades emitted →
    ∃ take ∈ takes event.quantity (b.makers event.side event.price),
      trade = ⟨event.orderId, take.1.orderId, take.2⟩)
  · exact fun _ _ => nofun
  · exact fun _ => mem_trades_fills rfl
  · exact fun _ _ _ => mem_trades_fills rfl
  · exact fun _ _ _ => mem_trades_fills rfl
  · exact fun _ _ _ => mem_trades_fills rfl

/-- Only an accepted add trades, and only with the makers that its limit crosses. -/
theorem mem_trades_onInput {fillable : Bool} {event : InputEvent} {trade : TradeEvent}
    (hmem : trade ∈ trades (b.onInput fillable event).2) :
    ∃ taker, event = .addOrder taker ∧ taker.Accepted ∧
      ∃ take ∈ takes taker.quantity (b.makers taker.side taker.price),
        trade = ⟨taker.orderId, take.1.orderId, take.2⟩ := by
  cases event with
  | shutdown => cases hmem
  | cancelOrder event =>
    exfalso
    revert hmem
    apply onCancelOrder_cases (P := fun _ emitted => trade ∈ trades emitted → False)
    · exact fun _ => nofun
    · exact fun _ _ _ => nofun
  | addOrder event =>
    refine ⟨event, rfl, ?_⟩
    revert hmem
    apply onAddOrder_cases (P := fun _ emitted => trade ∈ trades emitted → event.Accepted ∧
      ∃ take ∈ takes event.quantity (b.makers event.side event.price),
        trade = ⟨event.orderId, take.1.orderId, take.2⟩)
    · exact fun _ _ => nofun
    · exact fun haccepted hmem => ⟨haccepted, mem_trades_addOrder hmem⟩

/-- **One input.** Each trade is between the add at hand and one that came before. -/
theorem Backed.agreed {events : List InputEvent} (h : Backed events b) (hb : b.Valid) {fillable : Bool}
    {event : InputEvent} {trade : TradeEvent} (hmem : trade ∈ trades (b.onInput fillable event).2) :
    ∃ taker maker, event = .addOrder taker ∧ .addOrder maker ∈ events ∧ Agreed taker maker trade := by
  obtain ⟨taker, rfl, haccepted, ⟨o, t⟩, htake, rfl⟩ := mem_trades_onInput hmem
  have hpositive := hb.positive_makers taker.side taker.price
  obtain ⟨ho, hpos, hle⟩ := mem_takes hpositive htake
  obtain ⟨maker, hmaker, hrests⟩ := h o (mem_orders.mpr ⟨_, (crossed_sublist ..).subset ho⟩)
  have hkey := hrests.key_eq
  rw [key, Prod.mk.injEq, Prod.mk.injEq] at hkey
  obtain ⟨hid, hside, hprice⟩ := hkey
  have hopposite : o.side = taker.side.opposite := hb.side_eq _ o ((crossed_sublist ..).subset ho)
  refine ⟨taker, maker, rfl, hmaker, ?_⟩
  exact
    { takerAccepted := haccepted
      makerAccepted := hrests.accepted
      tif := hrests.tif
      side := hside.trans hopposite
      aggressiveOrderId := rfl
      restingOrderId := hid.symm
      crosses := by
        rw [hside, hopposite, hprice]
        exact crosses_of_mem_makers o ho
      positive := hpos
      quantity_le := ⟨mem_takes_le hpositive htake, hle.trans hrests.quantity_le⟩ }

/-- **Behind every trade there are two willing orders.** -/
theorem run_trades_agreed (events : List InputEvent) (hfits : ∀ e ∈ events, e.Fits T) :
    ∃ c emitted, Clob.run T {} events = .ok (c, emitted) ∧
      ∀ trade ∈ trades emitted, ∃ before taker after maker, events = before ++ .addOrder taker :: after ∧
        .addOrder maker ∈ before ∧ Agreed taker maker trade := by
  obtain ⟨c, emitted, levels, hrun, -, -, htrades⟩ := run_induction (T := T)
    (P := fun events emitted _ levels => Backed events (bookOf levels) ∧
      ∀ trade ∈ trades emitted, ∃ before taker after maker, events = before ++ .addOrder taker :: after ∧
        .addOrder maker ∈ before ∧ Agreed taker maker trade)
    ⟨by simp [Backed, bookOf, ordersOf, orders], by simp [trades]⟩
    (by
      intro events emitted c levels event c' levels' hc hP _ hbecomes
      refine ⟨hbecomes.book_eq ▸ hP.1.onInput hc.valid _ event, fun trade htrade => ?_⟩
      rw [trades_append] at htrade
      rcases List.mem_append.mp htrade with htrade | htrade
      · obtain ⟨before, taker, after, maker, rfl, hmaker, hagreed⟩ := hP.2 trade htrade
        exact ⟨before, taker, after ++ [event], maker, by simp, hmaker, hagreed⟩
      · obtain ⟨taker, maker, rfl, hmaker, hagreed⟩ := hP.1.agreed hc.valid htrade
        exact ⟨events, taker, [], maker, rfl, hmaker, hagreed⟩)
    events hfits
  exact ⟨c, emitted, hrun, htrades⟩

theorem run_trades_agreed_pair :
    ∃ c emitted, Clob.run .int64 {} [.addOrder ⟨1, .sell, 5, 100, .gtc⟩, .addOrder ⟨2, .buy, 7, 101, .ioc⟩]
        = .ok (c, emitted) ∧
      ∀ trade ∈ trades emitted, ∃ before taker after maker,
        [InputEvent.addOrder ⟨1, .sell, 5, 100, .gtc⟩, InputEvent.addOrder ⟨2, .buy, 7, 101, .ioc⟩]
            = before ++ InputEvent.addOrder taker :: after ∧
          InputEvent.addOrder maker ∈ before ∧ Agreed taker maker trade :=
  run_trades_agreed [.addOrder ⟨1, .sell, 5, 100, .gtc⟩, .addOrder ⟨2, .buy, 7, 101, .ioc⟩]
    (by decide +kernel)

end MatchingEngine
