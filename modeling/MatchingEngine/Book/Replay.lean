import MatchingEngine.Book.Ledger

/-!
# What the events say rests

A consumer that sees nothing but the emitted events and keeps a map from ids to quantities: RST sets
the quantity of its id, FIL and a CAN by request remove it, and all other events change nothing. As
long as no add reuses the id of a resting order, the map it ends with is the book's own.
-/

namespace MatchingEngine

open Divisible PriorityBook

/-- What a consumer of the events holds. -/
abbrev Holdings := Int → Option Int

def OutputEvent.apply (m : Holdings) : OutputEvent → Holdings
  | .orderResting event => Function.update m event.orderId (some event.restingQuantity)
  | .orderFilled event => Function.update m event.orderId none
  | .orderCancelled event =>
    if event.cause = .userRequest then Function.update m event.orderId none else m
  | _ => m

def replay (m : Holdings) (emitted : List OutputEvent) : Holdings := emitted.foldl OutputEvent.apply m

theorem replay_append (m : Holdings) (emitted later : List OutputEvent) :
    replay m (emitted ++ later) = replay (replay m emitted) later :=
  List.foldl_append ..

/-- The map holds exactly the quantities of these orders, by their ids. -/
def Tracks (m : Holdings) (os : List RestingOrder) : Prop :=
  ∀ orderId q, m orderId = some q ↔ ∃ o ∈ os, o.orderId = orderId ∧ o.quantity = q

namespace Tracks

variable {m : Holdings} {o : RestingOrder} {os ps : List RestingOrder} {orderId q : Int}

theorem empty : Tracks (fun _ => none) [] := by
  simp [Tracks]

theorem perm (h : Tracks m os) (hperm : os.Perm ps) : Tracks m ps := by
  intro orderId q
  simp only [h orderId q, hperm.mem_iff]

theorem eq_none_iff (h : Tracks m os) : m orderId = none ↔ orderId ∉ os.map RestingOrder.orderId := by
  rw [← not_iff_not, not_not, ← ne_eq, Option.ne_none_iff_exists', List.mem_map]
  constructor
  · intro ⟨q, hq⟩
    obtain ⟨o, ho, hid, -⟩ := (h orderId q).mp hq
    exact ⟨o, ho, hid⟩
  · intro ⟨o, ho, hid⟩
    exact ⟨o.quantity, (h orderId o.quantity).mpr ⟨o, ho, hid, rfl⟩⟩

/-- To take an id out of the map is to take its orders off the list. -/
theorem remove (h : Tracks m os) (orderId : Int) :
    Tracks (Function.update m orderId none) (os.filter fun o => o.orderId ≠ orderId) := by
  intro id q
  simp only [List.mem_filter, decide_eq_true_eq]
  by_cases heq : id = orderId
  · subst heq
    rw [Function.update_self]
    simp only [reduceCtorEq, false_iff]
    rintro ⟨o, ⟨-, hne⟩, hid, -⟩
    exact hne hid
  · rw [Function.update_of_ne heq, h id q]
    constructor
    · intro ⟨o, ho, hid, hq⟩
      exact ⟨o, ⟨ho, fun hid' => heq (hid ▸ hid')⟩, hid, hq⟩
    · rintro ⟨o, ⟨ho, -⟩, hid, hq⟩
      exact ⟨o, ho, hid, hq⟩

theorem remove_head (h : Tracks m (o :: os)) (hfresh : o.orderId ∉ os.map RestingOrder.orderId) :
    Tracks (Function.update m o.orderId none) os := by
  have hrest : os.filter (fun p => p.orderId ≠ o.orderId) = os := by
    apply List.filter_eq_self.mpr
    intro p hp
    rw [decide_eq_true_iff]
    exact fun heq => hfresh (heq ▸ List.mem_map_of_mem hp)
  have hremoved := h.remove o.orderId
  rwa [List.filter_cons_of_neg (by simp), hrest] at hremoved

theorem remove_absent (h : Tracks m os) (hfresh : orderId ∉ os.map RestingOrder.orderId) :
    Tracks (Function.update m orderId none) os := by
  rwa [Function.update_eq_self_iff.mpr (h.eq_none_iff.mpr hfresh).symm]

theorem set (h : Tracks m os) (hfresh : o.orderId ∉ os.map RestingOrder.orderId) :
    Tracks (Function.update m o.orderId (some o.quantity)) (o :: os) := by
  intro id q
  simp only [List.mem_cons, exists_eq_or_imp]
  by_cases heq : id = o.orderId
  · subst heq
    rw [Function.update_self, Option.some.injEq]
    constructor
    · exact fun hq => Or.inl ⟨rfl, hq⟩
    · rintro (⟨-, hq⟩ | ⟨p, hp, hid, -⟩)
      · exact hq
      · exact absurd (hid ▸ List.mem_map_of_mem hp) hfresh
  · rw [Function.update_of_ne heq, h id q]
    exact ⟨Or.inr, fun hor => hor.resolve_left fun hand => heq hand.1.symm⟩

/-- An order whose quantity changes. -/
theorem reset (h : Tracks m (o :: os)) (hfresh : o.orderId ∉ os.map RestingOrder.orderId) (q : Int) :
    Tracks (Function.update m o.orderId (some q)) ({ o with quantity := q } :: os) := by
  have hset := (h.remove_head hfresh).set (o := { o with quantity := q }) hfresh
  rwa [Function.update_idem] at hset

/-- The events of a fill leave of the makers what the fill leaves of them. -/
theorem fillEvents (taker q : Int) (os : List RestingOrder) (h : Tracks m (os ++ ps))
    (hnodup : ((os ++ ps).map RestingOrder.orderId).Nodup) :
    Tracks (replay m (PriorityBook.fillEvents taker q os)) (left q os ++ ps) := by
  induction os generalizing m q with
  | nil => exact h
  | cons o os ih =>
    rw [List.cons_append, List.map_cons, List.nodup_cons] at hnodup
    obtain ⟨hfresh, hnodup⟩ := hnodup
    rw [PriorityBook.fillEvents, takes, left]
    by_cases hq : q ≤ 0
    · rw [if_neg (by omega), if_pos hq]
      exact h
    rw [if_pos (by omega), if_neg hq, List.flatMap_cons, replay_append, takeEvents]
    by_cases hpart : q < amount o
    · -- the demand ends in this maker
      have hne : min q (amount o) ≠ o.quantity := by
        rw [amount_restingOrder] at hpart ⊢
        omega
      rw [if_pos hpart, if_neg hne, takes_of_nonpos (by omega), min_eq_left hpart.le]
      exact h.reset hfresh (amount o - q)
    · rw [if_neg hpart, min_eq_right (by omega), amount_restingOrder]
      simp only [if_true]
      exact ih _ (h.remove_head hfresh) hnodup

end Tracks

/-! ### One input -/

section Step

variable {b : PriorityBook} {m : Holdings}

theorem Tracks.sweep (hm : Tracks m b.orders) (h : b.Valid) (taker : Int) (side : Side) (limit q : Int) :
    Tracks (replay m (PriorityBook.fillEvents taker q (b.makers side limit)))
      (b.sweep side limit q).orders := by
  have hperm := b.orders_perm side.opposite
  rw [Side.opposite_opposite, ← h.makers_append_bystanders side limit, List.append_assoc] at hperm
  have hnodup := ((hperm.map RestingOrder.orderId).nodup_iff).mp h.nodup
  have hswept := (b.sweep side limit q).orders_perm side.opposite
  rw [Side.opposite_opposite, sweep_opposite, sweep_same, List.append_assoc] at hswept
  exact ((hm.perm hperm).fillEvents taker q _ hnodup).perm hswept.symm

theorem Tracks.addOrder (hm : Tracks m b.orders) (h : b.Valid) (fillable : Bool)
    {event : AddOrderEvent} (hfresh : event.orderId ∉ b.orders.map RestingOrder.orderId) :
    Tracks (replay m (b.addOrder fillable event).2) (b.addOrder fillable event).1.orders := by
  have hswept := hm.sweep h event.orderId event.side event.price event.quantity
  have hfreshSwept : event.orderId ∉ (b.sweep event.side event.price event.quantity).orders.map
      RestingOrder.orderId :=
    fun hmem => hfresh (sweep_orderIds_subset h _ _ _ hmem)
  apply addOrder_cases (P := fun b' emitted => Tracks (replay m emitted) b'.orders)
  · intro _ _
    exact hm
  · intro _
    rw [replay_append]
    exact hswept.remove_absent hfreshSwept
  · intro _ _ hdup
    exact absurd hdup hfreshSwept
  · intro _ _ _
    rw [replay_append]
    have hset := hswept.set (o := ⟨event.orderId, event.side, event.price,
      event.quantity - total (b.makers event.side event.price)⟩) hfreshSwept
    exact hset.perm (rest_orders_perm ..).symm
  · intro cause _ _
    rw [replay_append]
    by_cases huser : cause = .userRequest
    · subst huser
      exact hswept.remove_absent hfreshSwept
    · have hkept : replay (replay m (PriorityBook.fillEvents event.orderId event.quantity
          (b.makers event.side event.price))) [.orderCancelled ⟨event.orderId,
            total (b.makers event.side event.price),
            event.quantity - total (b.makers event.side event.price), cause⟩] = _ := if_neg huser
      rw [hkept]
      exact hswept

/-- **One input.** What the events say changes is what changes. -/
theorem Tracks.onInput (hm : Tracks m b.orders) (h : b.Valid) (fillable : Bool) {event : InputEvent}
    (hfresh : ∀ add, event = .addOrder add → add.orderId ∉ b.orders.map RestingOrder.orderId) :
    Tracks (replay m (b.onInput fillable event).2) (b.onInput fillable event).1.orders := by
  cases event with
  | shutdown => exact hm
  | addOrder event =>
    apply onAddOrder_cases (P := fun b' emitted => Tracks (replay m emitted) b'.orders)
    · intro _ _
      exact hm
    · intro _
      exact hm.addOrder h fillable (hfresh event rfl)
  | cancelOrder event =>
    apply onCancelOrder_cases (P := fun b' emitted => Tracks (replay m emitted) b'.orders)
    · intro _
      exact hm
    · intro o _ _
      rw [orders_withdraw]
      exact hm.remove o.orderId

end Step

/-! ### Runs -/

/-- No add of the run reuses the id of an order that rests when the add arrives. -/
def NoReuse (T : SignedInt) (events : List InputEvent) : Prop :=
  ∀ before add, before ++ [.addOrder add] <+: events →
    ∀ c emitted, Clob.run T {} before = .ok (c, emitted) →
      ∀ o ∈ c.restingOrders .buy ++ c.restingOrders .sell, o.orderId ≠ add.orderId

variable {T : SignedInt}

/-- Only added ids rest. -/
theorem run_added (events : List InputEvent) (hfits : ∀ event ∈ events, event.Fits T) :
    ∃ c emitted levels, Clob.run T {} events = .ok (c, emitted) ∧ Represents T c levels ∧
      (bookOf levels).orders.map RestingOrder.orderId ⊆ addIds events := by
  apply run_induction
    (P := fun events _ _ levels => (bookOf levels).orders.map RestingOrder.orderId ⊆ addIds events)
  · simp [PriorityBook.orders, bookOf, ordersOf]
  · intro events emitted c levels event c' levels' hc hadded _ hc'
    rw [hc'.book_eq, addIds_append, addIds_singleton]
    intro id hid
    have hmem := orderIds_onInput hc.valid (c.probe T event) event hid
    exact List.mem_append.mpr ((List.mem_append.mp hmem).imp_left (hadded ·))
  · exact hfits

/-- Adds with distinct ids reuse none. -/
theorem noReuse_of_nodup {events : List InputEvent} (hfits : ∀ event ∈ events, event.Fits T)
    (hnodup : (addIds events).Nodup) : NoReuse T events := by
  intro before add hinitial c emitted hrun o ho heq
  obtain ⟨after, rfl⟩ := hinitial
  obtain ⟨c', emitted', levels, hrun', hc, hadded⟩ := run_added before fun e he =>
    hfits e (List.mem_append_left _ (List.mem_append_left _ he))
  obtain ⟨rfl, rfl⟩ := ok_unique hrun hrun'
  rw [hc.restingOrders_eq, hc.restingOrders_eq] at ho
  rw [addIds_append, addIds_append, List.nodup_append, List.nodup_append] at hnodup
  exact hnodup.1.2.2 _ (hadded (List.mem_map_of_mem ho)) _ (List.mem_singleton_self _) heq

theorem tracks_of_noReuse (events : List InputEvent) (hfits : ∀ event ∈ events, event.Fits T)
    (hreuse : NoReuse T events) :
    ∃ c emitted levels, Clob.run T {} events = .ok (c, emitted) ∧ Represents T c levels ∧
      Tracks (replay (fun _ => none) emitted) (bookOf levels).orders := by
  induction events using List.reverseRecOn with
  | nil => exact ⟨{}, [], fun _ => [], rfl, represents_empty T, Tracks.empty⟩
  | append_singleton events event ih =>
    obtain ⟨c, emitted, levels, hrun, hc, hm⟩ := ih
      (fun e he => hfits e (List.mem_append_left _ he))
      fun before add hinitial => hreuse before add (hinitial.trans (List.prefix_append ..))
    obtain ⟨c', levels', hinput, hc'⟩ :=
      hc.onInput (hfits event (List.mem_append_right _ (List.mem_singleton_self _)))
    have hfresh : ∀ add, event = .addOrder add →
        add.orderId ∉ (bookOf levels).orders.map RestingOrder.orderId := by
      rintro add rfl hmem
      obtain ⟨o, ho, hid⟩ := List.mem_map.mp hmem
      apply hreuse events add List.prefix_rfl c emitted hrun o _ hid
      rwa [hc.restingOrders_eq, hc.restingOrders_eq]
    refine ⟨c', _, levels', Clob.run_concat hrun hinput, hc'.represents, ?_⟩
    rw [replay_append, hc'.book_eq]
    exact hm.onInput hc.valid _ hfresh

/-- **The output is a log of the book.** After every input of a run, folding the events emitted so far
gives the quantity of each resting order under its id, and nothing else. -/
theorem run_replay (events : List InputEvent) (hfits : ∀ event ∈ events, event.Fits T)
    (hreuse : NoReuse T events) :
    ∀ before, before <+: events → ∃ c emitted, Clob.run T {} before = .ok (c, emitted) ∧
      Tracks (replay (fun _ => none) emitted) (c.restingOrders .buy ++ c.restingOrders .sell) := by
  intro before hinitial
  obtain ⟨c, emitted, levels, hrun, hc, hm⟩ := tracks_of_noReuse before
    (fun e he => hfits e (hinitial.subset he))
    fun before' add hinitial' => hreuse before' add (hinitial'.trans hinitial)
  refine ⟨c, emitted, hrun, ?_⟩
  rwa [hc.restingOrders_eq, hc.restingOrders_eq]

/-- A sweep of two levels that stops in the second, the residue of a buy, and a cancel. -/
theorem run_replay_sweep :
    ∃ c emitted, Clob.run .int64 {} [.addOrder ⟨1, .sell, 5, 100, .gtc⟩,
        .addOrder ⟨2, .sell, 4, 101, .gtc⟩, .addOrder ⟨3, .buy, 7, 101, .ioc⟩,
        .addOrder ⟨4, .buy, 9, 101, .gtc⟩, .cancelOrder ⟨4⟩] = .ok (c, emitted) ∧
      Tracks (replay (fun _ => none) emitted) (c.restingOrders .buy ++ c.restingOrders .sell) :=
  run_replay _ (by decide +kernel) (noReuse_of_nodup (by decide +kernel) (by decide)) _ List.prefix_rfl

end MatchingEngine
