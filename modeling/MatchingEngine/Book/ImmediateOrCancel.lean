import MatchingEngine.Book.Duplicate
import MatchingEngine.Book.Ledger

/-!
# Immediate or cancel

An IOC order is one demand on the orders that its limit crosses and leaves nothing behind, so it is
known from what demands do to queues. One demand after another is one demand for both: an order may
be split. A limit that reaches further adds makers behind the ones there already were: it extends the
match and does not change it.
-/

namespace MatchingEngine

open Divisible PriorityBook

variable {T : SignedInt} {c : Clob} {levels : Side → List (List Slot)}

namespace PriorityBook

variable {b : PriorityBook} {side : Side} {limit q : Int}

/-- How an IOC order ends. -/
def iocTerminal (b : PriorityBook) (orderId : Int) (side : Side) (q limit : Int) : OutputEvent :=
  if q ≤ total (b.makers side limit) then .orderFilled ⟨orderId, q⟩
  else .orderCancelled ⟨orderId, total (b.makers side limit), q - total (b.makers side limit),
    .immediateOrCancel⟩

theorem addOrder_ioc (b : PriorityBook) (fillable : Bool) (orderId : Int) (side : Side) (q limit : Int) :
    b.addOrder fillable ⟨orderId, side, q, limit, .ioc⟩ = (b.sweep side limit q,
      fillEvents orderId q (b.makers side limit) ++ [b.iocTerminal orderId side q limit]) := by
  simp only [addOrder, iocTerminal, reduceCtorEq, false_and, if_false, if_true]
  by_cases hle : q ≤ total (b.makers side limit)
  · rw [min_eq_left hle, if_pos (Int.sub_self _), if_pos hle]
  · rw [min_eq_right (by omega), if_neg (by omega), if_neg hle]

/-- A demand on the makers leaves makers. -/
theorem crosses_left_makers (b : PriorityBook) (side : Side) (limit q : Int) :
    ∀ o ∈ left q (b.makers side limit), Crosses side.opposite limit o.price := by
  intro o ho
  have hsuffix := map_left_suffix (g := RestingOrder.price) (fun _ _ => rfl) q (b.makers side limit)
  obtain ⟨m, hm, hprice⟩ := List.mem_map.mp (hsuffix.subset (List.mem_map_of_mem ho))
  rw [← hprice]
  exact crosses_of_mem_makers m hm

theorem makers_sweep (b : PriorityBook) (side : Side) (limit q : Int) :
    (b.sweep side limit q).makers side limit = left q (b.makers side limit) :=
  (makers_update (crosses_left_makers b side limit q)).1

theorem bystanders_sweep (b : PriorityBook) (side : Side) (limit q : Int) :
    (b.sweep side limit q).bystanders side limit = b.bystanders side limit :=
  (makers_update (crosses_left_makers b side limit q)).2

/-- One demand after another is one demand for both. -/
theorem sweep_sweep (b : PriorityBook) (side : Side) (limit : Int) {r : Int} (hq : 0 ≤ q) (hr : 0 ≤ r) :
    (b.sweep side limit q).sweep side limit r = b.sweep side limit (q + r) := by
  rw [sweep, makers_sweep, bystanders_sweep, left_left (fun _ _ _ => rfl) hq hr, sweep, sweep,
    Function.update_idem]

/-- What each maker trades with the one and with the other, it trades with both. -/
theorem tradedAsMaker_split (b : PriorityBook) (side : Side) (limit : Int) {r : Int} (hq : 0 ≤ q)
    (hr : 0 ≤ r) (taker taker' taker'' orderId : Int) :
    tradedAsMaker orderId (fillEvents taker q (b.makers side limit))
        + tradedAsMaker orderId (fillEvents taker' r ((b.sweep side limit q).makers side limit))
      = tradedAsMaker orderId (fillEvents taker'' (q + r) (b.makers side limit)) := by
  let named : RestingOrder → Bool := fun o => o.orderId = orderId
  have hnamed : ∀ s a, named (withAmount s a) = named a := fun _ _ => rfl
  have hfirst := total_filter_left hnamed q (b.makers side limit)
  have hsecond := total_filter_left hnamed r (left q (b.makers side limit))
  have hboth := total_filter_left hnamed (q + r) (b.makers side limit)
  rw [left_left (fun _ _ _ => rfl) hq hr] at hsecond
  simp only [named] at hfirst hsecond hboth
  rw [makers_sweep, tradedAsMaker_fillEvents, tradedAsMaker_fillEvents, tradedAsMaker_fillEvents]
  omega

theorem tradedAsMaker_iocTerminal (b : PriorityBook) (id : Int) (side : Side) (q limit orderId : Int) :
    tradedAsMaker orderId [b.iocTerminal id side q limit] = 0 := by
  rw [tradedAsMaker_singleton, iocTerminal]
  split <;> rfl

end PriorityBook

/-- **One IOC order.** -/
theorem Represents.onInput_ioc (h : Represents T c levels) {orderId q limit : Int} (side : Side)
    (hid : 0 < orderId) (hq : 0 < q) (hlimit : 0 < limit) (hfits : T.Fits q) :
    ∃ c' levels', c.onInput T (.addOrder ⟨orderId, side, q, limit, .ioc⟩) = .ok (c',
        fillEvents orderId q ((bookOf levels).makers side limit)
          ++ [(bookOf levels).iocTerminal orderId side q limit]) ∧
      Becomes T c levels ((bookOf levels).sweep side limit q) c' levels' := by
  obtain ⟨c', levels', hadd, hc'⟩ :=
    @Represents.addOrder T c levels h ⟨orderId, side, q, limit, .ioc⟩ hid hq hlimit hfits
  rw [addOrder_ioc] at hadd hc'
  refine ⟨c', levels', ?_, hc'⟩
  rw [← hadd]
  simp only [Clob.onInput, Clob.onAddOrder, if_neg (not_le.mpr hid), if_neg (not_le.mpr hq),
    if_neg (not_le.mpr hlimit)]

/-! ### Splitting -/

/-- **An order may be split.** Two IOC orders in turn take from each resting order what one IOC order
for both quantities takes, and leave the same book. -/
theorem run_split (events : List InputEvent) (side : Side) (limit q₁ q₂ id₁ id₂ id : Int)
    (hfits : ∀ e ∈ events, e.Fits T) (hsum : T.Fits (q₁ + q₂)) (hlimit : 0 < limit) (hq₁ : 0 < q₁)
    (hq₂ : 0 < q₂) (hid₁ : 0 < id₁) (hid₂ : 0 < id₂) (hid : 0 < id) :
    ∃ c emitted c₂ parts c' whole, Clob.run T {} events = .ok (c, emitted) ∧
      c.run T [.addOrder ⟨id₁, side, q₁, limit, .ioc⟩, .addOrder ⟨id₂, side, q₂, limit, .ioc⟩]
        = .ok (c₂, parts) ∧
      c.run T [.addOrder ⟨id, side, q₁ + q₂, limit, .ioc⟩] = .ok (c', whole) ∧
      c₂.view = c'.view ∧ ∀ orderId, tradedAsMaker orderId parts = tradedAsMaker orderId whole := by
  obtain ⟨c, emitted, levels, hrun, hc⟩ := run_represents events hfits
  obtain ⟨c₁, levels₁, hfirst, hc₁⟩ :=
    hc.onInput_ioc side hid₁ hq₁ hlimit (hsum.of_le hq₁.le (by omega))
  obtain ⟨c₂, levels₂, hsecond, hc₂⟩ :=
    hc₁.represents.onInput_ioc side hid₂ hq₂ hlimit (hsum.of_le hq₂.le (by omega))
  obtain ⟨c', levels', hwhole, hc'⟩ := hc.onInput_ioc side hid (by omega) hlimit hsum
  rw [hc₁.book_eq] at hsecond hc₂
  rw [sweep_sweep _ _ _ hq₁.le hq₂.le] at hc₂
  have hparts := Clob.run_concat (Clob.run_singleton hfirst) hsecond
  refine ⟨c, emitted, c₂, _, c', _, hrun, hparts, Clob.run_singleton hwhole, ?_, ?_⟩
  · exact hc₂.represents.view_eq hc'.represents (hc₂.book_eq.trans hc'.book_eq.symm)
  · intro orderId
    have hsplit := tradedAsMaker_split (bookOf levels) side limit hq₁.le hq₂.le id₁ id₂ id orderId
    simp only [tradedAsMaker_append, tradedAsMaker_iocTerminal, Int.add_zero]
    exact hsplit

theorem run_split_maker :
    ∃ c emitted c₂ parts c' whole, Clob.run .int64 {} [.addOrder ⟨1, .sell, 5, 100, .gtc⟩,
        .addOrder ⟨2, .sell, 4, 101, .gtc⟩] = .ok (c, emitted) ∧
      c.run .int64 [.addOrder ⟨3, .buy, 3, 101, .ioc⟩, .addOrder ⟨4, .buy, 4, 101, .ioc⟩]
        = .ok (c₂, parts) ∧
      c.run .int64 [.addOrder ⟨5, .buy, 3 + 4, 101, .ioc⟩] = .ok (c', whole) ∧
      c₂.view = c'.view ∧ ∀ orderId, tradedAsMaker orderId parts = tradedAsMaker orderId whole :=
  run_split _ .buy 101 3 4 3 4 5 (by decide +kernel) (by decide +kernel) (by decide) (by decide)
    (by decide) (by decide) (by decide) (by decide)

/-! ### Aggression -/

/-- The second limit reaches at least as far as the first. -/
def AsAggressive : Side → Int → Int → Prop
  | .buy, p, q => p ≤ q
  | .sell, p, q => q ≤ p

theorem AsAggressive.crosses {side : Side} {p q r : Int} (h : AsAggressive side p q)
    (hcross : Crosses side.opposite p r) : Crosses side.opposite q r := by
  cases side <;> simp only [AsAggressive, Crosses, Side.opposite, RestingLevelsCompare] at * <;> omega

/-- No order of a side can trade with this one at a limit. -/
def OutOfReach (side : Side) (limit : Int) (o : RestingOrder) : Prop :=
  o.side = side ∨ ¬ Crosses side.opposite limit o.price

instance (side : Side) (limit : Int) : DecidablePred (OutOfReach side limit) := fun o =>
  inferInstanceAs (Decidable (o.side = side ∨ _))

/-- The orders with a property are what and where they were, and no trade is with one of them. -/
structure LeavesAlone (c c' : Clob) (emitted : List OutputEvent) (P : RestingOrder → Prop)
    [DecidablePred P] : Prop where
  queues : ∀ side, (c'.restingOrders side).filter P = (c.restingOrders side).filter P
  lookup : ∀ side, ∀ o ∈ c.restingOrders side, P o → c'.view.lookup o.orderId = some o
  trades : ∀ side, ∀ o ∈ c.restingOrders side, P o →
    ∀ trade ∈ trades emitted, trade.restingOrderId ≠ o.orderId

namespace PriorityBook

variable {b : PriorityBook} {side : Side} {limit limit' q : Int}

theorem trade?_iocTerminal (b : PriorityBook) (orderId : Int) (side : Side) (q limit : Int) :
    (b.iocTerminal orderId side q limit).trade? = none := by
  rw [iocTerminal]
  split <;> rfl

theorem trades_ioc (b : PriorityBook) (emitted : List OutputEvent) (orderId : Int) (side : Side)
    (q limit : Int) : trades (emitted ++ [b.iocTerminal orderId side q limit]) = trades emitted := by
  rw [trades, List.filterMap_append, List.filterMap_cons_none (trade?_iocTerminal ..)]
  exact List.append_nil _

/-- What a limit crosses stands in front of what a further one crosses besides. -/
theorem makers_of_asAggressive (h : b.Valid) (haggressive : AsAggressive side limit limit') :
    ∃ more, b.makers side limit' = b.makers side limit ++ more ∧
      more ++ b.bystanders side limit' = b.bystanders side limit := by
  have hall : crossed side.opposite limit' (b.makers side limit) = b.makers side limit := by
    apply List.filter_eq_self.mpr
    intro o ho
    simpa using haggressive.crosses (crosses_of_mem_makers o ho)
  have hmakers : b.makers side limit' = b.makers side limit
      ++ crossed side.opposite limit' (b.bystanders side limit) := by
    rw [← hall, ← crossed_append, h.makers_append_bystanders]
    rfl
  refine ⟨_, hmakers, ?_⟩
  have hboth := h.makers_append_bystanders side limit'
  rw [hmakers, List.append_assoc, ← h.makers_append_bystanders side limit] at hboth
  exact List.append_cancel_left hboth

/-- A demand that the nearer makers can meet does not get to the others. -/
theorem sweep_of_asAggressive (h : b.Valid) (haggressive : AsAggressive side limit limit')
    (hle : q ≤ total (b.makers side limit)) : b.sweep side limit' q = b.sweep side limit q := by
  obtain ⟨more, hmakers, hbystanders⟩ := makers_of_asAggressive h haggressive
  rw [sweep, sweep, hmakers, left_append (h.positive_makers side limit),
    left_of_nonpos (q := q - _) (by omega), List.append_assoc, hbystanders]

theorem fillEvents_of_asAggressive (h : b.Valid) (haggressive : AsAggressive side limit limit')
    (taker q : Int) : ∃ later, fillEvents taker q (b.makers side limit')
        = fillEvents taker q (b.makers side limit) ++ later ∧
      (q ≤ total (b.makers side limit) → later = []) := by
  obtain ⟨more, hmakers, -⟩ := makers_of_asAggressive h haggressive
  refine ⟨fillEvents taker (q - total (b.makers side limit)) more, ?_, ?_⟩
  · rw [fillEvents, hmakers, takes_append (h.positive_makers side limit), List.flatMap_append]
    rfl
  · intro hle
    rw [fillEvents, takes_of_nonpos (by omega)]
    rfl

/-- A demand does not touch what is out of its reach. -/
theorem filter_sweep (h : b.Valid) (haggressive : AsAggressive side limit limit') (s : Side) :
    (b.sweep side limit q s).filter (OutOfReach side limit')
      = (b s).filter (OutOfReach side limit') := by
  rcases Side.eq_or_eq_opposite side s with rfl | rfl
  · rw [sweep_same]
  have hnone : ∀ os : List RestingOrder, (∀ o ∈ os, o.side = side.opposite) →
      (∀ o ∈ os, Crosses side.opposite limit o.price) →
      os.filter (OutOfReach side limit') = [] := by
    intro os hside hcross
    apply List.filter_eq_nil_iff.mpr
    intro o ho
    simp [OutOfReach, hside o ho, haggressive.crosses (hcross o ho)]
  have hswept := (h.sweep side limit q).side_eq side.opposite
  have hbefore := h.side_eq side.opposite
  rw [sweep_opposite] at hswept
  rw [← h.makers_append_bystanders side limit] at hbefore
  rw [sweep_opposite, ← h.makers_append_bystanders side limit, List.filter_append,
    List.filter_append]
  congr 1
  rw [hnone _ (fun o ho => hswept o (List.mem_append_left _ ho)) (crosses_left_makers b side limit q),
    hnone _ (fun o ho => hbefore o (List.mem_append_left _ ho)) crosses_of_mem_makers]

end PriorityBook

theorem leavesAlone_sweep {c' : Clob} {levels' : Side → List (List Slot)} {side : Side}
    {limit limit' taker q : Int} (hc : Represents T c levels)
    (hc' : Represents.Becomes T c levels ((bookOf levels).sweep side limit q) c' levels')
    (haggressive : AsAggressive side limit limit') :
    LeavesAlone c c' (fillEvents taker q ((bookOf levels).makers side limit)
      ++ [(bookOf levels).iocTerminal taker side q limit]) (OutOfReach side limit') := by
  have hqueues : ∀ s, (c'.restingOrders s).filter (OutOfReach side limit')
      = (c.restingOrders s).filter (OutOfReach side limit') := by
    intro s
    rw [hc.restingOrders_eq, hc'.represents.restingOrders_eq, hc'.book_eq]
    exact filter_sweep hc.valid haggressive s
  refine ⟨hqueues, ?_, ?_⟩
  · intro s o ho hreach
    have hkept : o ∈ c'.restingOrders s := by
      have hmem : o ∈ (c.restingOrders s).filter (OutOfReach side limit') :=
        List.mem_filter.mpr ⟨ho, by simpa using hreach⟩
      rw [← hqueues s] at hmem
      exact List.mem_of_mem_filter hmem
    rw [hc'.represents.restingOrders_eq] at hkept
    rw [hc'.represents.lookup_view, hc'.represents.valid.find?_eq_some_iff]
    exact ⟨mem_orders.mpr ⟨s, hkept⟩, rfl⟩
  · intro s o ho hreach trade htrade heq
    rw [trades_ioc] at htrade
    obtain ⟨e, he, hsome⟩ := List.mem_filterMap.mp htrade
    cases e with
    | trade event =>
      obtain rfl : event = trade := Option.some.inj hsome
      obtain ⟨-, m, hm, hid⟩ := of_trade_mem_fillEvents he
      rw [hc.restingOrders_eq] at ho
      have hmaker := List.mem_of_mem_filter hm
      obtain rfl := hc.valid.eq_of_orderId_eq (mem_orders.mpr ⟨_, hmaker⟩)
        (mem_orders.mpr ⟨s, ho⟩) (hid.trans heq)
      rcases hreach with hside | hfar
      · exact Side.opposite_ne side ((hc.valid.side_eq _ _ hmaker).symm.trans hside)
      · exact hfar (haggressive.crosses (crosses_of_mem_makers _ hm))
    | _ => simp [OutputEvent.trade?] at hsome

/-- **A more aggressive limit only extends the match.** -/
theorem run_aggressive (events : List InputEvent) (side : Side) (orderId q limit limit' : Int)
    (hfits : ∀ e ∈ events, e.Fits T) (hqfits : T.Fits q) (hid : 0 < orderId) (hq : 0 < q)
    (hlimit : 0 < limit) (hlimit' : 0 < limit') (haggressive : AsAggressive side limit limit') :
    ∃ c emitted c₁ out₁ c₂ out₂, Clob.run T {} events = .ok (c, emitted) ∧
      c.onInput T (.addOrder ⟨orderId, side, q, limit, .ioc⟩) = .ok (c₁, out₁) ∧
      c.onInput T (.addOrder ⟨orderId, side, q, limit', .ioc⟩) = .ok (c₂, out₂) ∧
      trades out₁ <+: trades out₂ ∧
      (∀ filled, out₁.getLast? = some (.orderFilled filled) →
        trades out₁ = trades out₂ ∧ c₁.view = c₂.view) ∧
      LeavesAlone c c₁ out₁ (OutOfReach side limit') ∧
      LeavesAlone c c₂ out₂ (OutOfReach side limit') := by
  obtain ⟨c, emitted, levels, hrun, hc⟩ := run_represents events hfits
  obtain ⟨c₁, levels₁, hfirst, hc₁⟩ := hc.onInput_ioc side hid hq hlimit hqfits
  obtain ⟨c₂, levels₂, hsecond, hc₂⟩ := hc.onInput_ioc side hid hq hlimit' hqfits
  obtain ⟨later, hfills, hnone⟩ := fillEvents_of_asAggressive hc.valid haggressive orderId q
  refine ⟨c, emitted, c₁, _, c₂, _, hrun, hfirst, hsecond, ?_, ?_, ?_, ?_⟩
  · rw [trades_ioc, trades_ioc, hfills, trades_append]
    exact List.prefix_append ..
  · intro filled hlast
    have hle : q ≤ total ((bookOf levels).makers side limit) := by
      rw [List.getLast?_concat, Option.some.injEq, iocTerminal] at hlast
      by_contra hlt
      rw [if_neg hlt] at hlast
      cases hlast
    constructor
    · rw [trades_ioc, trades_ioc, hfills, hnone hle, List.append_nil]
    · apply hc₁.represents.view_eq hc₂.represents
      rw [hc₁.book_eq, hc₂.book_eq, sweep_of_asAggressive hc.valid haggressive hle]
  · exact leavesAlone_sweep hc hc₁ haggressive
  · have hself : AsAggressive side limit' limit' := by cases side <;> exact le_refl limit'
    exact leavesAlone_sweep hc hc₂ hself

theorem run_aggressive_level :
    ∃ c emitted c₁ out₁ c₂ out₂, Clob.run .int64 {} [.addOrder ⟨1, .sell, 5, 100, .gtc⟩,
        .addOrder ⟨2, .sell, 4, 101, .gtc⟩] = .ok (c, emitted) ∧
      c.onInput .int64 (.addOrder ⟨3, .buy, 7, 100, .ioc⟩) = .ok (c₁, out₁) ∧
      c.onInput .int64 (.addOrder ⟨3, .buy, 7, 101, .ioc⟩) = .ok (c₂, out₂) ∧
      trades out₁ <+: trades out₂ ∧
      (∀ filled, out₁.getLast? = some (.orderFilled filled) →
        trades out₁ = trades out₂ ∧ c₁.view = c₂.view) ∧
      LeavesAlone c c₁ out₁ (OutOfReach .buy 101) ∧ LeavesAlone c c₂ out₂ (OutOfReach .buy 101) :=
  run_aggressive _ .buy 3 7 100 101 (by decide +kernel) (by decide +kernel) (by decide) (by decide)
    (by decide) (by decide) (show (100 : Int) ≤ 101 by decide)

end MatchingEngine
