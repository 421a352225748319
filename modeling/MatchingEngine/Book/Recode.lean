import MatchingEngine.Book.Snapshot

/-!
# Other ids, other prices, other lots

Matching looks at an id only to tell orders apart, at a price only to put it in order with others, and
at a quantity only to add and subtract. So the orders of a stream may be given other ids, their prices
moved by any map that keeps the order of prices, and their quantities counted in another lot: the book
then says the same of the recoded stream, recoded.

`Book.Relabel` says of labels that each function of the memory commutes with them. Here the fill of an
order changes too, so the argument goes through the book that the memory stands for.
-/

namespace MatchingEngine

open Divisible PriorityBook

/-- Other ids, prices in the same order, and quantities in another lot. In a machine type a lot of more
than one would wrap elsewhere. -/
structure Recoding (T : SignedInt) where
  orderId : Int → Int
  price : Int → Int
  lot : Int
  orderId_injective : Function.Injective orderId
  orderId_pos : ∀ i, 0 < orderId i ↔ 0 < i
  price_lt : ∀ p q, p < q → price p < price q
  price_pos : ∀ p, 0 < price p ↔ 0 < p
  lot_pos : 0 < lot
  lot_exact : lot = 1 ∨ T = .unbounded

variable {T : SignedInt}

namespace InputEvent

def recode (r : Recoding T) : InputEvent → InputEvent
  | addOrder event => addOrder
      ⟨r.orderId event.orderId, event.side, r.lot * event.quantity, r.price event.price, event.tif⟩
  | cancelOrder event => cancelOrder ⟨r.orderId event.orderId⟩
  | shutdown => shutdown

end InputEvent

namespace OutputEvent

def recode (r : Recoding T) : OutputEvent → OutputEvent
  | trade event =>
    trade ⟨r.orderId event.aggressiveOrderId, r.orderId event.restingOrderId, r.lot * event.quantity⟩
  | orderResting event => orderResting
      ⟨r.orderId event.orderId, r.lot * event.filledQuantity, r.lot * event.restingQuantity⟩
  | orderFilled event => orderFilled ⟨r.orderId event.orderId, r.lot * event.filledQuantity⟩
  | orderCancelled event => orderCancelled ⟨r.orderId event.orderId, r.lot * event.filledQuantity,
      r.lot * event.cancelledQuantity, event.cause⟩
  | orderRejected event => orderRejected ⟨r.orderId event.orderId, event.rejectCode⟩
  | shutdown => shutdown

end OutputEvent

namespace RestingOrder

def recode (r : Recoding T) (o : RestingOrder) : RestingOrder :=
  ⟨r.orderId o.orderId, o.side, r.price o.price, r.lot * o.quantity⟩

end RestingOrder

namespace PriorityBook

def recode (r : Recoding T) (b : PriorityBook) : PriorityBook := fun side =>
  (b side).map (RestingOrder.recode r)

end PriorityBook

section Commutation

variable (r : Recoding T)

theorem scales_recode : Scales r.lot (RestingOrder.recode r) where
  amount _ := rfl
  withAmount _ _ := rfl

theorem lot_mul_pos_iff (q : Int) : 0 < r.lot * q ↔ 0 < q := mul_pos_iff_of_pos_left r.lot_pos

theorem lot_mul_inj {p q : Int} : r.lot * p = r.lot * q ↔ p = q :=
  Int.mul_eq_mul_left_iff r.lot_pos.ne'

theorem price_lt_iff (p q : Int) : r.price p < r.price q ↔ p < q := by
  have hmono : StrictMono r.price := r.price_lt
  exact hmono.lt_iff_lt

theorem price_injective : Function.Injective r.price := by
  have hmono : StrictMono r.price := r.price_lt
  exact hmono.injective

theorem compare_recode (side : Side) (p q : Int) :
    RestingLevelsCompare side (r.price p) (r.price q) ↔ RestingLevelsCompare side p q := by
  cases side with
  | buy => exact price_lt_iff r q p
  | sell => exact price_lt_iff r p q

theorem crosses_recode (side : Side) (p q : Int) :
    Crosses side (r.price p) (r.price q) ↔ Crosses side p q :=
  not_congr (compare_recode r side p q)

namespace PriorityBook

variable (b : PriorityBook)

theorem makers_recode (side : Side) (limit : Int) :
    (b.recode r).makers side (r.price limit) = (b.makers side limit).map (RestingOrder.recode r) := by
  rw [makers, makers, crossed, crossed, recode, List.filter_map]
  congr 1
  apply List.filter_congr
  intro o _
  exact decide_eq_decide.mpr (crosses_recode r side.opposite limit o.price)

theorem bystanders_recode (side : Side) (limit : Int) :
    (b.recode r).bystanders side (r.price limit) = (b.bystanders side limit).map (RestingOrder.recode r) := by
  rw [bystanders, bystanders, uncrossed, uncrossed, recode, List.filter_map]
  congr 1
  apply List.filter_congr
  intro o _
  exact decide_eq_decide.mpr (not_congr (crosses_recode r side.opposite limit o.price))

/-- A queue put in the place of another. -/
theorem recode_update (side : Side) (os : List RestingOrder) :
    recode r (Function.update b side os)
      = Function.update (b.recode r) side (os.map (RestingOrder.recode r)) := by
  funext s
  by_cases hs : s = side
  · subst hs
    rw [recode, Function.update_self, Function.update_self]
  · rw [recode, Function.update_of_ne hs, Function.update_of_ne hs, recode]

theorem sweep_recode (side : Side) (limit q : Int) :
    (b.recode r).sweep side (r.price limit) (r.lot * q) = (b.sweep side limit q).recode r := by
  rw [sweep, sweep, recode_update, makers_recode, bystanders_recode,
    (scales_recode r).left_map r.lot_pos, List.map_append]

theorem enqueue_recode (o : RestingOrder) (os : List RestingOrder) :
    enqueue (o.recode r) (os.map (RestingOrder.recode r)) = (enqueue o os).map (RestingOrder.recode r) := by
  induction os with
  | nil => rfl
  | cons p ps ih =>
    have hcompare : RestingLevelsCompare (o.recode r).side (o.recode r).price (p.recode r).price
        ↔ RestingLevelsCompare o.side o.price p.price := compare_recode r o.side o.price p.price
    rw [List.map_cons, enqueue, enqueue, ih, apply_ite (List.map (RestingOrder.recode r))]
    simp only [hcompare, List.map_cons]

theorem rest_recode (o : RestingOrder) : (b.recode r).rest (o.recode r) = (b.rest o).recode r := by
  rw [rest, rest, recode_update, ← enqueue_recode]
  rfl

theorem orders_recode : (b.recode r).orders = b.orders.map (RestingOrder.recode r) :=
  List.map_append.symm

theorem orderId_recode_mem_iff (orderId : Int) :
    r.orderId orderId ∈ (b.recode r).orders.map RestingOrder.orderId
      ↔ orderId ∈ b.orders.map RestingOrder.orderId := by
  have hids : (b.recode r).orders.map RestingOrder.orderId
      = (b.orders.map RestingOrder.orderId).map r.orderId := by
    rw [orders_recode, List.map_map, List.map_map]
    rfl
  rw [hids, List.mem_map_of_injective r.orderId_injective]

theorem find?_recode (orderId : Int) :
    (b.recode r).find? (r.orderId orderId) = (b.find? orderId).map (RestingOrder.recode r) := by
  rw [find?, find?, orders_recode, List.find?_map]
  congr 1
  apply congrArg (List.find? · b.orders)
  funext o
  exact decide_eq_decide.mpr r.orderId_injective.eq_iff

theorem withdraw_recode (orderId : Int) :
    (b.recode r).withdraw (r.orderId orderId) = (b.withdraw orderId).recode r := by
  funext side
  simp only [withdraw, recode, List.filter_map]
  congr 1
  apply List.filter_congr
  intro o _
  exact decide_eq_decide.mpr (not_congr r.orderId_injective.eq_iff)

theorem takeEvents_recode (taker : Int) (take : RestingOrder × Int) :
    takeEvents (r.orderId taker) (take.1.recode r, r.lot * take.2)
      = (takeEvents taker take).map (OutputEvent.recode r) := by
  have hwhole : r.lot * take.2 = (take.1.recode r).quantity ↔ take.2 = take.1.quantity := lot_mul_inj r
  rw [takeEvents, takeEvents]
  by_cases hfull : take.2 = take.1.quantity
  · rw [if_pos hfull, if_pos (hwhole.mpr hfull)]
    rfl
  · rw [if_neg hfull, if_neg (mt hwhole.mp hfull)]
    simp only [List.map_cons, List.map_nil, OutputEvent.recode, Int.mul_sub]
    rfl

theorem fillEvents_recode (taker q : Int) (os : List RestingOrder) :
    fillEvents (r.orderId taker) (r.lot * q) (os.map (RestingOrder.recode r))
      = (fillEvents taker q os).map (OutputEvent.recode r) := by
  rw [fillEvents, fillEvents, (scales_recode r).takes_map r.lot_pos, List.flatMap_map, List.map_flatMap]
  simp only [takeEvents_recode]

variable (fillable : Bool)

theorem addOrder_recode (event : AddOrderEvent) {event' : AddOrderEvent}
    (hevent : (InputEvent.addOrder event).recode r = .addOrder event') :
    (b.recode r).addOrder fillable event'
      = Prod.map (recode r) (List.map (OutputEvent.recode r)) (b.addOrder fillable event) := by
  obtain rfl := InputEvent.addOrder.inj hevent
  have hfilled : min (r.lot * event.quantity) (r.lot * total (b.makers event.side event.price))
      = r.lot * min event.quantity (total (b.makers event.side event.price)) :=
    (mul_min_of_nonneg _ _ r.lot_pos.le).symm
  have hzero : ∀ q : Int, r.lot * q = 0 ↔ q = 0 := fun q => by
    rw [Int.mul_eq_zero, or_iff_right r.lot_pos.ne']
  simp only [addOrder, makers_recode, (scales_recode r).total_map, hfilled, ← Int.mul_sub, hzero,
    sweep_recode, fillEvents_recode, orderId_recode_mem_iff]
  split
  · simp [OutputEvent.recode]
  split
  · simp [OutputEvent.recode]
  split
  · split
    · simp [OutputEvent.recode]
    · rw [Prod.map_apply, ← rest_recode]
      simp [OutputEvent.recode, RestingOrder.recode]
  · simp [OutputEvent.recode]

/-- **One input.** -/
theorem onInput_recode (event : InputEvent) :
    (b.recode r).onInput fillable (event.recode r)
      = Prod.map (recode r) (List.map (OutputEvent.recode r)) (b.onInput fillable event) := by
  have hid : ∀ i, r.orderId i ≤ 0 ↔ i ≤ 0 := fun i => not_lt.symm.trans ((r.orderId_pos i).not.trans not_lt)
  have hprice : ∀ p, r.price p ≤ 0 ↔ p ≤ 0 := fun p => not_lt.symm.trans ((r.price_pos p).not.trans not_lt)
  have hqty : ∀ q, r.lot * q ≤ 0 ↔ q ≤ 0 := fun q =>
    not_lt.symm.trans ((lot_mul_pos_iff r q).not.trans not_lt)
  cases event with
  | shutdown => rfl
  | addOrder event =>
    simp only [InputEvent.recode, onInput, onAddOrder, hid, hprice, hqty]
    split
    · rfl
    split
    · rfl
    split
    · rfl
    exact addOrder_recode r b fillable event rfl
  | cancelOrder event =>
    simp only [InputEvent.recode, onInput, onCancelOrder, hid, find?_recode, withdraw_recode]
    split
    · rfl
    cases b.find? event.orderId with
    | none => rfl
    | some o => simp [OutputEvent.recode, RestingOrder.recode]

end PriorityBook

end Commutation

/-! ### The decision on a fill-or-kill order -/

section Probe

variable (r : Recoding T)

theorem wrap_lot (x : Int) : T.wrap (r.lot * x) = r.lot * T.wrap x := by
  obtain hlot | rfl := r.lot_exact
  · rw [hlot, Int.one_mul, Int.one_mul]
  · rfl

theorem fillableFrom_recode (side : Side) (limitPrice need available : Int)
    {entries entries' : List (Int × PriceLevel)}
    (h : entries'.map (fun e => (e.1, e.2.totalQuantity))
      = entries.map fun e => (r.price e.1, r.lot * e.2.totalQuantity)) :
    OrderBookSide.fillableFrom T side (r.price limitPrice) (r.lot * need) (r.lot * available) entries'
      = r.lot * OrderBookSide.fillableFrom T side limitPrice need available entries := by
  induction entries generalizing available entries' with
  | nil =>
    obtain rfl := List.map_eq_nil_iff.mp h
    rfl
  | cons entry entries ih =>
    cases entries' with
    | nil => cases h
    | cons entry' entries' =>
      rw [List.map_cons, List.map_cons, List.cons.injEq, Prod.mk.injEq] at h
      obtain ⟨⟨hprice, htotal⟩, hrest⟩ := h
      have hadd : T.add (r.lot * available) (r.lot * entry.2.totalQuantity)
          = r.lot * T.add available entry.2.totalQuantity := by
        rw [SignedInt.add, ← Int.mul_add, wrap_lot]
        rfl
      have hle : ∀ x, r.lot * need ≤ r.lot * x ↔ need ≤ x := fun _ => Int.mul_le_mul_left r.lot_pos
      simp only [OrderBookSide.fillableFrom, hprice, htotal, crosses_recode, hadd, hle, ih _ hrest,
        apply_ite (r.lot * ·)]

variable {c c' : Clob}

theorem filter_price_recode (price : Int) (os : List RestingOrder) :
    (os.map (RestingOrder.recode r)).filter (fun o => o.price = r.price price)
      = (os.filter fun o => o.price = price).map (RestingOrder.recode r) := by
  rw [List.filter_map]
  congr 1
  apply List.filter_congr
  intro o _
  exact decide_eq_decide.mpr (price_injective r).eq_iff

/-- The levels of a recoded side are the recoded levels. -/
theorem ladder_recode {entries entries' : List (Int × PriceLevel)} {queues queues' : List (List Slot)}
    (h : List.Forall₂ (LevelHolds T c.arena) entries queues)
    (h' : List.Forall₂ (LevelHolds T c'.arena) entries' queues')
    (hkeys : (entries.map Prod.fst).Nodup) (hkeys' : (entries'.map Prod.fst).Nodup)
    (heq : ordersOf queues' = (ordersOf queues).map (RestingOrder.recode r)) :
    entries'.map (fun e => (e.1, e.2.totalQuantity))
      = entries.map fun e => (r.price e.1, r.lot * e.2.totalQuantity) := by
  induction h generalizing entries' queues' with
  | nil =>
    cases h' with
    | nil => rfl
    | cons hlevel' _ =>
      obtain ⟨o, os, hqueue', -⟩ := hlevel'.exists_order
      rw [ordersOf_cons, hqueue'] at heq
      cases heq
  | @cons entry queue entries queues hlevel hrest ih =>
    obtain ⟨o, os, hqueue, ho⟩ := hlevel.exists_order
    cases h' with
    | nil =>
      rw [ordersOf_cons, hqueue] at heq
      cases heq
    | @cons entry' queue' entries' queues' hlevel' hrest' =>
      obtain ⟨o', os', hqueue', ho'⟩ := hlevel'.exists_order
      rw [List.map_cons, List.nodup_cons] at hkeys hkeys'
      have hprices : ∀ p ∈ ordersOf queues, p.price ≠ entry.1 :=
        ladder_price (P := fun price => price ≠ entry.1) hrest fun e he heq =>
          hkeys.1 (heq ▸ List.mem_map_of_mem he)
      have hprices' : ∀ p ∈ ordersOf queues', p.price ≠ entry'.1 :=
        ladder_price (P := fun price => price ≠ entry'.1) hrest' fun e he heq =>
          hkeys'.1 (heq ▸ List.mem_map_of_mem he)
      rw [ordersOf_cons, ordersOf_cons, List.map_append] at heq
      have hprice : entry'.1 = r.price entry.1 := by
        rw [hqueue, hqueue', List.map_cons, List.cons_append, List.cons_append] at heq
        rw [← ho, ← ho', (List.cons.inj heq).1]
        rfl
      have hsame : queue'.map Prod.snd = (queue.map Prod.snd).map (RestingOrder.recode r) := by
        rw [← hlevel'.filter_eq hprices', heq, ← List.map_append, hprice, filter_price_recode,
          hlevel.filter_eq hprices]
      have htotal : entry'.2.totalQuantity = r.lot * entry.2.totalQuantity := by
        rw [hlevel'.total_eq, hlevel.total_eq, hsame, (scales_recode r).total_map, wrap_lot]
      rw [hsame] at heq
      rw [List.map_cons, List.map_cons, hprice, htotal,
        ih hrest' hkeys.2 hkeys'.2 (List.append_cancel_left heq)]

variable {levels levels' : Side → List (List Slot)}

theorem Represents.probe_recode (h : Represents T c levels) (h' : Represents T c' levels')
    (hbook : bookOf levels' = (bookOf levels).recode r) (event : InputEvent) :
    c'.probe T (event.recode r) = c.probe T event := by
  cases event with
  | cancelOrder event => rfl
  | shutdown => rfl
  | addOrder event =>
    have hlevels : ∀ side, (c'.sideBook side).levels.entries.map (fun e => (e.1, e.2.totalQuantity))
        = (c.sideBook side).levels.entries.map fun e => (r.price e.1, r.lot * e.2.totalQuantity) := by
      intro side
      exact ladder_recode r (h.sides side) (h'.sides side) (c.sideBook side).levels.keys_nodup
        (c'.sideBook side).levels.keys_nodup (congrFun hbook side)
    have hprobe := fillableFrom_recode r event.side.opposite event.price event.quantity 0
      (hlevels event.side.opposite)
    rw [Int.mul_zero] at hprobe
    simp only [InputEvent.recode, Clob.probe, Clob.fillableAtLimit, OrderBookSide.fillableQuantity, hprobe]
    exact decide_eq_decide.mpr (Int.mul_le_mul_left r.lot_pos)

theorem Represents.run_recoded (h : Represents T c levels) (h' : Represents T c' levels')
    (hbook : bookOf levels' = (bookOf levels).recode r) {events : List InputEvent}
    (hfits : ∀ e ∈ events, e.Fits T) (hfits' : ∀ e ∈ events, (e.recode r).Fits T) :
    ∃ c₁ c₁' emitted, c.run T events = .ok (c₁, emitted) ∧
      c'.run T (events.map (InputEvent.recode r)) = .ok (c₁', emitted.map (OutputEvent.recode r)) ∧
      ∀ side, c₁'.restingOrders side = (c₁.restingOrders side).map (RestingOrder.recode r) := by
  induction events generalizing c c' levels levels' with
  | nil =>
    refine ⟨c, c', [], rfl, rfl, fun side => ?_⟩
    rw [h.restingOrders_eq, h'.restingOrders_eq, hbook]
    rfl
  | cons event events ih =>
    have hmem : event ∈ event :: events := List.mem_cons_self ..
    obtain ⟨c₁, levels₁, hinput, hbecomes⟩ := h.onInput (hfits event hmem)
    obtain ⟨c₁', levels₁', hinput', hbecomes'⟩ := h'.onInput (hfits' event hmem)
    rw [h.probe_recode r h' hbook, hbook, onInput_recode, Prod.map_apply'] at hinput' hbecomes'
    have hnext : bookOf levels₁' = (bookOf levels₁).recode r := by
      rw [hbecomes'.book_eq, hbecomes.book_eq]
    obtain ⟨c₂, c₂', later, hrun, hrun', hresting⟩ := ih hbecomes.represents hbecomes'.represents hnext
      (fun e he => hfits e (List.mem_cons_of_mem _ he)) fun e he => hfits' e (List.mem_cons_of_mem _ he)
    refine ⟨c₂, c₂', ((bookOf levels).onInput (c.probe T event) event).2 ++ later, ?_, ?_, hresting⟩
    · simp only [Clob.run, hinput, ok_bind, hrun]
      rfl
    · simp only [List.map_cons, Clob.run, hinput', ok_bind, hrun', List.map_append]
      rfl

end Probe

/-- **The book knows orders apart, prices in order and quantities by what they add up to, and nothing
else.** A recoded stream is answered with the recoded events, and leaves the recoded orders. -/
theorem run_recode (r : Recoding T) (events : List InputEvent) (hfits : ∀ e ∈ events, e.Fits T)
    (hfits' : ∀ e ∈ events, (e.recode r).Fits T) :
    ∃ c c' emitted, Clob.run T {} events = .ok (c, emitted) ∧
      Clob.run T {} (events.map (InputEvent.recode r)) = .ok (c', emitted.map (OutputEvent.recode r)) ∧
      ∀ side, c'.restingOrders side = (c.restingOrders side).map (RestingOrder.recode r) :=
  (represents_empty T).run_recoded r (represents_empty T) rfl hfits hfits'

/-- Ids and prices multiplied, quantities kept: a recoding in every integer type. -/
def Recoding.stretch (i p : Int) (hi : 0 < i) (hp : 0 < p) : Recoding T where
  orderId orderId := i * orderId
  price price := p * price
  lot := 1
  orderId_injective _ _ h := (Int.mul_eq_mul_left_iff hi.ne').mp h
  orderId_pos _ := mul_pos_iff_of_pos_left hi
  price_lt _ _ h := Int.mul_lt_mul_of_pos_left h hp
  price_pos _ := mul_pos_iff_of_pos_left hp
  lot_pos := Int.one_pos
  lot_exact := Or.inl rfl

theorem run_recode_stretch :
    ∃ c c' emitted, Clob.run .int64 {} [.addOrder ⟨1, .sell, 5, 100, .gtc⟩, .addOrder ⟨2, .buy, 8, 101, .gtc⟩,
        .cancelOrder ⟨2⟩] = .ok (c, emitted) ∧
      Clob.run .int64 {} [.addOrder ⟨7, .sell, 5, 300, .gtc⟩, .addOrder ⟨14, .buy, 8, 303, .gtc⟩,
        .cancelOrder ⟨14⟩] = .ok (c', emitted.map
          (OutputEvent.recode (Recoding.stretch 7 3 (by decide) (by decide) : Recoding .int64))) ∧
      ∀ side, c'.restingOrders side = (c.restingOrders side).map
        (RestingOrder.recode (Recoding.stretch 7 3 (by decide) (by decide) : Recoding .int64)) :=
  run_recode (Recoding.stretch 7 3 (by decide) (by decide)) _ (by decide +kernel) (by decide +kernel)

end MatchingEngine
