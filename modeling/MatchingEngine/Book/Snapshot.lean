import MatchingEngine.Book.Withdraw

/-!
# Putting a book back

What a book does next depends on its resting orders and on nothing else: not on the addresses of its
nodes, the nodes retired before, or the inputs that led to it. And the resting orders can be put back
into an empty book as adds, in any order that keeps the orders of a side at a price as they stand; the
others do not get into each other's way.
-/

namespace MatchingEngine

open Divisible PriorityBook

variable {T : SignedInt} {c c' : Clob} {levels levels' : Side → List (List Slot)}

/-! ### Books that look the same -/

theorem fillableFrom_congr {side : Side} (limitPrice need : Int) {available : Int}
    {entries entries' : List (Int × PriceLevel)}
    (h : entries.map (fun e => (e.1, e.2.totalQuantity)) = entries'.map fun e => (e.1, e.2.totalQuantity)) :
    OrderBookSide.fillableFrom T side limitPrice need available entries
      = OrderBookSide.fillableFrom T side limitPrice need available entries' := by
  induction entries generalizing available entries' with
  | nil =>
    obtain rfl := List.map_eq_nil_iff.mp h.symm
    rfl
  | cons entry entries ih =>
    cases entries' with
    | nil => cases h
    | cons entry' entries' =>
      rw [List.map_cons, List.map_cons, List.cons.injEq, Prod.mk.injEq] at h
      obtain ⟨⟨hprice, htotal⟩, hrest⟩ := h
      simp only [OrderBookSide.fillableFrom, hprice, htotal, ih hrest]

/-- The decision on a fill-or-kill order can be told from how the book looks. -/
theorem Clob.probe_congr (h : c.view = c'.view) (event : InputEvent) : c.probe T event = c'.probe T event := by
  cases event with
  | cancelOrder event => rfl
  | shutdown => rfl
  | addOrder event =>
    have hlevels : ∀ side, (c.sideBook side).levels.entries.map (fun e => (e.1, e.2.totalQuantity))
        = (c'.sideBook side).levels.entries.map fun e => (e.1, e.2.totalQuantity) := by
      intro side
      have hside := congrArg (List.map fun level => (level.1, level.2.1))
        (congrFun (congrArg BookView.levels h) side)
      simp only [Clob.view, List.map_map] at hside
      exact hside
    simp only [Clob.probe, Clob.fillableAtLimit, OrderBookSide.fillableQuantity,
      fillableFrom_congr _ _ (hlevels _)]
    rfl

/-- **Books with the same orders go on alike.** -/
theorem Represents.run_congr (h : Represents T c levels) (h' : Represents T c' levels')
    (hbook : bookOf levels = bookOf levels') {events : List InputEvent} (hfits : ∀ e ∈ events, e.Fits T) :
    ∃ c₁ c₁' emitted, c.run T events = .ok (c₁, emitted) ∧ c'.run T events = .ok (c₁', emitted) ∧
      c₁.view = c₁'.view := by
  induction events generalizing c c' levels levels' with
  | nil => exact ⟨c, c', [], rfl, rfl, h.view_eq h' hbook⟩
  | cons event events ih =>
    obtain ⟨c₁, levels₁, hinput, hbecomes⟩ := h.onInput (hfits event (List.mem_cons_self ..))
    obtain ⟨c₁', levels₁', hinput', hbecomes'⟩ := h'.onInput (hfits event (List.mem_cons_self ..))
    rw [← Clob.probe_congr (h.view_eq h' hbook), ← hbook] at hinput' hbecomes'
    obtain ⟨c₂, c₂', later, hrun, hrun', hview⟩ := ih hbecomes.represents hbecomes'.represents
      (hbecomes.book_eq.trans hbecomes'.book_eq.symm) fun e he => hfits e (List.mem_cons_of_mem _ he)
    refine ⟨c₂, c₂', ((bookOf levels).onInput (c.probe T event) event).2 ++ later, ?_, ?_, hview⟩
    · simp only [Clob.run, hinput, ok_bind, hrun]
      rfl
    · simp only [Clob.run, hinput', ok_bind, hrun']
      rfl

/-! ### Queues from their prices -/

/-- A queue is known by its orders at each price. -/
theorem Ranked.ext {side : Side} {os os' : List RestingOrder} (h : Ranked side os) (h' : Ranked side os')
    (heq : ∀ price, os.filter (fun o => o.price = price) = os'.filter fun o => o.price = price) :
    os = os' := by
  have hmem : ∀ {os os' : List RestingOrder},
      (∀ price, os.filter (fun o => o.price = price) = os'.filter fun o => o.price = price) →
      ∀ o ∈ os, o ∈ os' := by
    intro os os' heq o ho
    have hfilter : o ∈ os.filter fun p => p.price = o.price := List.mem_filter.mpr ⟨ho, by simp⟩
    rw [heq] at hfilter
    exact List.mem_of_mem_filter hfilter
  induction os generalizing os' with
  | nil =>
    cases os' with
    | nil => rfl
    | cons o' os' =>
      exact absurd (hmem (fun price => (heq price).symm) o' (List.mem_cons_self ..)) List.not_mem_nil
  | cons o os ih =>
    cases os' with
    | nil => exact absurd (hmem heq o (List.mem_cons_self ..)) List.not_mem_nil
    | cons o' os' =>
      obtain ⟨ho, hos⟩ := List.pairwise_cons.mp h
      obtain ⟨ho', hos'⟩ := List.pairwise_cons.mp h'
      -- neither head is better priced than the other
      have hprice : o.price = o'.price := by
        have hle : ¬ RestingLevelsCompare side o.price o'.price := by
          rcases List.mem_cons.mp (hmem heq o (List.mem_cons_self ..)) with rfl | hin
          · exact OrderedMap.not_lt_self _ _
          · exact ho' o hin
        have hge : ¬ RestingLevelsCompare side o'.price o.price := by
          rcases List.mem_cons.mp (hmem (fun price => (heq price).symm) o' (List.mem_cons_self ..))
            with rfl | hin
          · exact OrderedMap.not_lt_self _ _
          · exact ho o' hin
        cases side <;> simp only [RestingLevelsCompare] at hle hge <;> omega
      have hhead := heq o.price
      rw [List.filter_cons_of_pos (by simp), List.filter_cons_of_pos (by simp [hprice]),
        List.cons.injEq] at hhead
      obtain ⟨rfl, htail⟩ := hhead
      rw [ih hos hos' fun price => ?_]
      by_cases hp : o.price = price
      · rw [← hp]
        exact htail
      · have hrest := heq price
        rwa [List.filter_cons_of_neg (by simpa using hp), List.filter_cons_of_neg (by simpa using hp)]
          at hrest

namespace PriorityBook

/-- At its own price an order goes to the end; the other prices do not change. -/
theorem filter_price_enqueue {o : RestingOrder} {os : List RestingOrder} (h : Ranked o.side os)
    (price : Int) : (enqueue o os).filter (fun p => p.price = price)
      = os.filter (fun p => p.price = price) ++ if o.price = price then [o] else [] := by
  by_cases hprice : o.price = price
  · rw [filter_enqueue h (by simpa using hprice), if_pos hprice]
    have hplace := @enqueue_append o (os.filter fun p => p.price = price) []
    rw [List.append_nil] at hplace
    refine hplace (fun p hp => ?_) (fun p hp => absurd hp List.not_mem_nil)
    have hp : p.price = price := by simpa using (List.mem_filter.mp hp).2
    rw [hprice, hp]
    exact OrderedMap.not_lt_self _ _
  · rw [filter_enqueue_of_neg (by simpa using hprice), if_neg hprice, List.append_nil]

/-- One order after the other rests. -/
def restAll (b : PriorityBook) (os : List RestingOrder) : PriorityBook := os.foldl rest b

theorem ranked_rest {b : PriorityBook} (h : ∀ side, Ranked side (b side)) (o : RestingOrder)
    (side : Side) : Ranked side (b.rest o side) := by
  by_cases hside : side = o.side
  · subst hside
    rw [rest_same]
    exact Ranked.enqueue (h _)
  · rw [rest, Function.update_of_ne hside]
    exact h side

theorem ranked_restAll {b : PriorityBook} (h : ∀ side, Ranked side (b side)) (os : List RestingOrder)
    (side : Side) : Ranked side (b.restAll os side) := by
  induction os generalizing b with
  | nil => exact h side
  | cons o os ih => exact ih (ranked_rest h o)

/-- At each side and price the orders stand as they were entered. -/
theorem filter_restAll {b : PriorityBook} (h : ∀ side, Ranked side (b side)) (os : List RestingOrder)
    (side : Side) (price : Int) : (b.restAll os side).filter (fun o => o.price = price)
      = (b side).filter (fun o => o.price = price) ++ os.filter fun o => o.side = side ∧ o.price = price := by
  induction os generalizing b with
  | nil =>
    rw [List.filter_nil, List.append_nil]
    rfl
  | cons o os ih =>
    rw [restAll, List.foldl_cons, ← restAll, ih (ranked_rest h o), List.filter_cons]
    by_cases hside : side = o.side
    · subst hside
      rw [rest_same, filter_price_enqueue (h _), List.append_assoc]
      by_cases hprice : o.price = price
      · simp [hprice]
      · simp [hprice]
    · rw [rest, Function.update_of_ne hside]
      simp [Ne.symm hside]

/-- A book is what its orders come to when they rest one after the other, in any order that keeps them
as they stand at each side and price. -/
theorem restAll_eq {b : PriorityBook} (h : ∀ side, Ranked side (b side)) {os : List RestingOrder}
    (hos : ∀ side price, os.filter (fun o => o.side = side ∧ o.price = price)
      = (b side).filter fun o => o.price = price) : restAll (fun _ => []) os = b := by
  have hempty : ∀ side, Ranked side ([] : List RestingOrder) := fun _ => List.Pairwise.nil
  funext side
  apply (ranked_restAll hempty os side).ext (h side)
  intro price
  rw [filter_restAll hempty, hos, List.filter_nil, List.nil_append]

/-- They are then the orders of the book, in another order. -/
theorem perm_orders {b : PriorityBook} (h : b.Valid) {os : List RestingOrder}
    (hos : ∀ side price, os.filter (fun o => o.side = side ∧ o.price = price)
      = (b side).filter fun o => o.price = price) : os.Perm b.orders := by
  have hperm : ∀ os : List RestingOrder, (restAll (fun _ => []) os).orders.Perm os := by
    intro os
    induction os using List.reverseRecOn with
    | nil => exact List.Perm.refl _
    | append_singleton os o ih =>
      rw [restAll, List.foldl_append]
      exact (rest_orders_perm _ o).trans ((ih.cons o).trans (List.perm_append_singleton o os).symm)
  rw [← restAll_eq h.ranked hos]
  exact (hperm os).symm

/-- Every id and every price in the book is a value of the integer type. -/
def KeysFit (T : SignedInt) (b : PriorityBook) : Prop :=
  ∀ o ∈ b.orders, T.Fits o.orderId ∧ T.Fits o.price

theorem KeysFit.of_sublist {b b' : PriorityBook} (h : KeysFit T b)
    (hsub : ∀ side, ((b' side).map key).Sublist ((b side).map key)) : KeysFit T b' := by
  intro o ho
  obtain ⟨side, hside⟩ := mem_orders.mp ho
  obtain ⟨p, hp, hkey⟩ := List.mem_map.mp ((hsub side).subset (List.mem_map_of_mem hside))
  have hfits := h p (mem_orders.mpr ⟨side, hp⟩)
  rwa [show p.orderId = o.orderId from congrArg Prod.fst hkey,
    show p.price = o.price from congrArg (fun k => k.2.2) hkey] at hfits

theorem KeysFit.onInput {b : PriorityBook} (h : KeysFit T b) (hb : b.Valid) (fillable : Bool)
    {event : InputEvent} (hfits : event.Fits T) : KeysFit T (b.onInput fillable event).1 := by
  cases event with
  | shutdown => exact h
  | cancelOrder event =>
    apply onCancelOrder_cases (P := fun b' _ => KeysFit T b')
    · intro _
      exact h
    · intro o _ _
      exact h.of_sublist fun _ => List.filter_sublist.map key
  | addOrder event =>
    have hswept := h.of_sublist (sweep_map_key_sublist hb event.side event.price event.quantity)
    apply onAddOrder_cases (P := fun b' _ => KeysFit T b')
    · intro _ _
      exact h
    intro _
    apply addOrder_cases (P := fun b' _ => KeysFit T b')
    · intro _ _
      exact h
    · intro _
      exact hswept
    · intro _ _ _
      exact hswept
    · intro _ _ _ o ho
      rcases List.mem_cons.mp ((rest_orders_perm ..).mem_iff.mp ho) with rfl | ho
      · exact ⟨hfits.1, hfits.2.2⟩
      · exact hswept o ho
    · intro _ _ _
      exact hswept

end PriorityBook

/-! ### Restoring -/

/-- The add that puts a resting order back. -/
def RestingOrder.readd (o : RestingOrder) : AddOrderEvent := ⟨o.orderId, o.side, o.quantity, o.price, .gtc⟩

/-- The report on a resting order that has been put back. -/
def RestingOrder.rested (o : RestingOrder) : OutputEvent := .orderResting ⟨o.orderId, 0, o.quantity⟩

/-- These orders may be put back one after the other. -/
structure Restorable (T : SignedInt) (b : PriorityBook) (os : List RestingOrder) : Prop where
  accepted : ∀ o ∈ os, o.readd.Accepted
  fits : ∀ o ∈ os, (InputEvent.addOrder o.readd).Fits T
  nodup : ((os ++ b.orders).map RestingOrder.orderId).Nodup
  clear : ∀ o ∈ os, ∀ p ∈ os ++ b.orders, p.side = o.side.opposite → ¬ Crosses p.side o.price p.price

theorem Represents.restore (h : Represents T c levels) {os : List RestingOrder}
    (hos : Restorable T (bookOf levels) os) :
    ∃ c' levels', c.run T (os.map fun o => .addOrder o.readd) = .ok (c', os.map RestingOrder.rested) ∧
      Represents T c' levels' ∧ bookOf levels' = (bookOf levels).restAll os := by
  induction os generalizing c levels with
  | nil => exact ⟨c, levels, rfl, h, rfl⟩
  | cons o os ih =>
    have hmem : o ∈ o :: os := List.mem_cons_self ..
    have hfresh : o.orderId ∉ (bookOf levels).orders.map RestingOrder.orderId := by
      have hnodup := hos.nodup
      rw [List.cons_append, List.map_cons, List.nodup_cons, List.map_append] at hnodup
      exact fun hin => hnodup.1 (List.mem_append_right _ hin)
    have hclear : (bookOf levels).makers o.side o.price = [] := by
      apply List.filter_eq_nil_iff.mpr
      intro p hp
      have hside := h.valid.side_eq _ p hp
      have hnot := hos.clear o hmem p (List.mem_append_right _ (mem_orders.mpr ⟨_, hp⟩)) hside
      rw [hside] at hnot
      simpa using hnot
    obtain ⟨c₁, levels₁, hinput, hbecomes⟩ := h.onInput (hos.fits o hmem)
    rw [onInput_of_clear h.valid (hos.accepted o hmem) rfl hfresh hclear] at hinput hbecomes
    have hperm : (os ++ (bookOf levels₁).orders).Perm (o :: os ++ (bookOf levels).orders) := by
      rw [hbecomes.book_eq]
      exact ((rest_orders_perm _ o).append_left os).trans List.perm_middle
    obtain ⟨c₂, levels₂, hrun, hc₂, hbook⟩ := ih hbecomes.represents
      { accepted := fun p hp => hos.accepted p (List.mem_cons_of_mem _ hp)
        fits := fun p hp => hos.fits p (List.mem_cons_of_mem _ hp)
        nodup := (hperm.map _).nodup_iff.mpr hos.nodup
        clear := fun p hp r hr => hos.clear p (List.mem_cons_of_mem _ hp) r (hperm.mem_iff.mp hr) }
    refine ⟨c₂, levels₂, ?_, hc₂, ?_⟩
    · simp only [List.map_cons, Clob.run, hinput, ok_bind, hrun]
      rfl
    · rw [hbook, hbecomes.book_eq]
      rfl

theorem Represents.restorable (h : Represents T c levels) (hkeys : KeysFit T (bookOf levels))
    {os : List RestingOrder} (hperm : os.Perm (bookOf levels).orders) :
    Restorable T (fun _ => []) os := by
  have hvalid := h.valid
  refine ⟨?_, ?_, ?_, ?_⟩
  · intro o ho
    obtain ⟨side, hside⟩ := mem_orders.mp (hperm.mem_iff.mp ho)
    exact ⟨hvalid.orderId_pos side o hside, hvalid.positive side o hside, hvalid.price_pos side o hside⟩
  · intro o ho
    have hmem := hperm.mem_iff.mp ho
    obtain ⟨side, hside⟩ := mem_orders.mp hmem
    obtain ⟨slot, hslot, rfl⟩ := List.mem_map.mp hside
    exact ⟨(hkeys _ hmem).1, h.fits side slot hslot, (hkeys _ hmem).2⟩
  · have hnil : os ++ orders (fun _ => []) = os := List.append_nil os
    rw [hnil]
    exact (hperm.map _).nodup_iff.mpr hvalid.nodup
  · intro o ho p hp hside
    have hnil : os ++ orders (fun _ => []) = os := List.append_nil os
    rw [hnil] at hp
    obtain ⟨side, ho'⟩ := mem_orders.mp (hperm.mem_iff.mp ho)
    obtain ⟨side', hp'⟩ := mem_orders.mp (hperm.mem_iff.mp hp)
    have hside' : side' = side.opposite := by
      rw [← hvalid.side_eq side' p hp', hside, hvalid.side_eq side o ho']
    subst hside'
    rw [hvalid.side_eq _ p hp']
    exact hvalid.uncrossed side o ho' p hp'

/-- **A book is its resting orders.** Put back into an empty book, in any order that keeps those of a
side at a price as they stand, they rest without trading, and from then on every input is answered as if
the book had never been away. -/
theorem run_restore (events : List InputEvent) (hfits : ∀ e ∈ events, e.Fits T)
    {emitted : List OutputEvent} (hrun : Clob.run T {} events = .ok (c, emitted)) (os : List RestingOrder)
    (hos : ∀ side price, os.filter (fun o => o.side = side ∧ o.price = price)
      = (c.restingOrders side).filter fun o => o.price = price)
    (later : List InputEvent) (hlater : ∀ e ∈ later, e.Fits T) :
    ∃ c', Clob.run T {} (os.map fun o => .addOrder o.readd) = .ok (c', os.map RestingOrder.rested) ∧
      c'.view = c.view ∧
      ∃ c₁ c₁' emittedLater, c.run T later = .ok (c₁, emittedLater) ∧
        c'.run T later = .ok (c₁', emittedLater) ∧ c₁'.view = c₁.view := by
  obtain ⟨c₀, emitted₀, levels, hrun₀, hc, hkeys⟩ := run_induction (T := T)
    (P := fun _ _ _ levels => KeysFit T (bookOf levels)) (by simp [KeysFit, bookOf, ordersOf, orders])
    (fun h hkeys hfits hbecomes => hbecomes.book_eq ▸ hkeys.onInput h.valid _ hfits) events hfits
  obtain ⟨rfl, rfl⟩ := ok_unique hrun hrun₀
  simp only [hc.restingOrders_eq] at hos
  have hperm := perm_orders hc.valid hos
  obtain ⟨c', levels', hrestore, hc', hbook⟩ := (represents_empty T).restore (hc.restorable hkeys hperm)
  have hsame : bookOf levels = bookOf levels' := (hbook.trans (restAll_eq hc.valid.ranked hos)).symm
  obtain ⟨c₁, c₁', emittedLater, hgo, hgo', hview⟩ := hc.run_congr hc' hsame hlater
  exact ⟨c', hrestore, hc'.view_eq hc hsame.symm, c₁, c₁', emittedLater, hgo, hgo', hview.symm⟩

/-- The two sides put back in turn, the bids worst price first. -/
theorem run_restore_turn :
    ∃ c emitted, Clob.run .int64 {} [.addOrder ⟨1, .buy, 5, 100, .gtc⟩, .addOrder ⟨2, .buy, 4, 99, .gtc⟩,
        .addOrder ⟨3, .sell, 2, 101, .gtc⟩, .addOrder ⟨4, .sell, 3, 100, .ioc⟩] = .ok (c, emitted) ∧
      ∃ c', Clob.run .int64 {} [.addOrder ⟨2, .buy, 4, 99, .gtc⟩, .addOrder ⟨3, .sell, 2, 101, .gtc⟩,
          .addOrder ⟨1, .buy, 2, 100, .gtc⟩] = .ok (c', [.orderResting ⟨2, 0, 4⟩, .orderResting ⟨3, 0, 2⟩,
            .orderResting ⟨1, 0, 2⟩]) ∧
        c'.view = c.view ∧
        ∃ c₁ c₁' emittedLater, c.run .int64 [.addOrder ⟨5, .sell, 9, 99, .ioc⟩] = .ok (c₁, emittedLater) ∧
          c'.run .int64 [.addOrder ⟨5, .sell, 9, 99, .ioc⟩] = .ok (c₁', emittedLater) ∧
          c₁'.view = c₁.view := by
  obtain ⟨c, emitted, -, hrun, -⟩ := run_represents (T := .int64) [.addOrder ⟨1, .buy, 5, 100, .gtc⟩,
    .addOrder ⟨2, .buy, 4, 99, .gtc⟩, .addOrder ⟨3, .sell, 2, 101, .gtc⟩,
    .addOrder ⟨4, .sell, 3, 100, .ioc⟩] (by decide +kernel)
  have hresting : (Clob.run .int64 {} [.addOrder ⟨1, .buy, 5, 100, .gtc⟩, .addOrder ⟨2, .buy, 4, 99, .gtc⟩,
      .addOrder ⟨3, .sell, 2, 101, .gtc⟩, .addOrder ⟨4, .sell, 3, 100, .ioc⟩]).map
        (fun r => (r.1.restingOrders .buy, r.1.restingOrders .sell))
      = .ok ([⟨1, .buy, 100, 2⟩, ⟨2, .buy, 99, 4⟩], [⟨3, .sell, 101, 2⟩]) := by decide +kernel
  rw [hrun, map_ok, Except.ok.injEq, Prod.mk.injEq] at hresting
  refine ⟨c, emitted, hrun, run_restore _ (by decide +kernel) hrun
    [⟨2, .buy, 99, 4⟩, ⟨3, .sell, 101, 2⟩, ⟨1, .buy, 100, 2⟩] ?_ _ (by decide +kernel)⟩
  intro side price
  cases side with
  | buy =>
    rw [hresting.1]
    by_cases hfirst : 100 = price
    · subst hfirst
      decide
    · by_cases hsecond : 99 = price <;> simp [hfirst, hsecond]
  | sell =>
    rw [hresting.2]
    by_cases hfirst : 101 = price <;> simp [hfirst]

end MatchingEngine
