import MatchingEngine.Book.Run
import MatchingEngine.Book.View

/-!
# Where an order's quantity goes

An account for each id: what it has traded as aggressor and as maker, what of it was cancelled, and
what of it still rests. One input moves quantity between the entries of an account and brings in
exactly the quantity of an add. Over a run in which no two adds share an id, an account therefore
holds the quantity its add came with.
-/

namespace MatchingEngine

open Divisible PriorityBook

def OutputEvent.aggressorQuantity (orderId : Int) : OutputEvent → Int
  | .trade event => if event.aggressiveOrderId = orderId then event.quantity else 0
  | _ => 0

def OutputEvent.makerQuantity (orderId : Int) : OutputEvent → Int
  | .trade event => if event.restingOrderId = orderId then event.quantity else 0
  | _ => 0

def OutputEvent.cancelledQuantity? (orderId : Int) : OutputEvent → Option Int
  | .orderCancelled event => if event.orderId = orderId then some event.cancelledQuantity else none
  | _ => none

def OutputEvent.tradedQuantity : OutputEvent → Int
  | .trade event => event.quantity
  | _ => 0

/-- What the events say was traded by an id as aggressor. -/
def tradedAsAggressor (orderId : Int) (emitted : List OutputEvent) : Int :=
  (emitted.map (OutputEvent.aggressorQuantity orderId)).sum

def tradedAsMaker (orderId : Int) (emitted : List OutputEvent) : Int :=
  (emitted.map (OutputEvent.makerQuantity orderId)).sum

/-- The cancelled quantities of the CAN events of an id. -/
def cancels (orderId : Int) (emitted : List OutputEvent) : List Int :=
  emitted.filterMap (OutputEvent.cancelledQuantity? orderId)

/-- The quantity of an id among resting orders. -/
def remaining (orderId : Int) (os : List RestingOrder) : Int :=
  total (os.filter fun o => o.orderId = orderId)

/-- Everything that an account holds. -/
def account (orderId : Int) (emitted : List OutputEvent) (os : List RestingOrder) : Int :=
  tradedAsAggressor orderId emitted + tradedAsMaker orderId emitted + (cancels orderId emitted).sum
    + remaining orderId os

/-- What an input brings to an account. -/
def InputEvent.brings (orderId : Int) : InputEvent → Int
  | .addOrder event => if event.Accepted ∧ event.orderId = orderId then event.quantity else 0
  | _ => 0

def InputEvent.addId? : InputEvent → Option Int
  | .addOrder event => some event.orderId
  | _ => none

def addIds (events : List InputEvent) : List Int := events.filterMap InputEvent.addId?

/-- The terminal event of an add accounts for all of its quantity. -/
def OutputEvent.Settles (event : AddOrderEvent) (traded : Int) : OutputEvent → Prop
  | .orderResting e =>
    e.orderId = event.orderId ∧ e.filledQuantity = traded ∧
      e.filledQuantity + e.restingQuantity = event.quantity
  | .orderFilled e =>
    e.orderId = event.orderId ∧ e.filledQuantity = traded ∧ e.filledQuantity = event.quantity
  | .orderCancelled e =>
    e.orderId = event.orderId ∧ e.filledQuantity = traded ∧
      e.filledQuantity + e.cancelledQuantity = event.quantity
  | _ => False

/-! ### Sums over events -/

section Sums

variable {orderId taker q : Int} {as bs : List OutputEvent} {os ps : List RestingOrder}

@[simp] theorem tradedAsAggressor_append : tradedAsAggressor orderId (as ++ bs)
    = tradedAsAggressor orderId as + tradedAsAggressor orderId bs := by
  simp [tradedAsAggressor]

@[simp] theorem tradedAsMaker_append :
    tradedAsMaker orderId (as ++ bs) = tradedAsMaker orderId as + tradedAsMaker orderId bs := by
  simp [tradedAsMaker]

@[simp] theorem cancels_append : cancels orderId (as ++ bs) = cancels orderId as ++ cancels orderId bs :=
  List.filterMap_append ..

@[simp] theorem remaining_append : remaining orderId (os ++ ps)
    = remaining orderId os + remaining orderId ps := by
  simp [remaining]

@[simp] theorem tradedAsAggressor_singleton (e : OutputEvent) :
    tradedAsAggressor orderId [e] = e.aggressorQuantity orderId := by
  simp [tradedAsAggressor]

@[simp] theorem tradedAsMaker_singleton (e : OutputEvent) :
    tradedAsMaker orderId [e] = e.makerQuantity orderId := by
  simp [tradedAsMaker]

@[simp] theorem cancels_singleton (e : OutputEvent) :
    cancels orderId [e] = (e.cancelledQuantity? orderId).toList := by
  cases h : e.cancelledQuantity? orderId <;> simp [cancels, h]

theorem cancels_cancelled (id filled cancelled : Int) (cause : CancelCause) :
    cancels orderId [.orderCancelled ⟨id, filled, cancelled, cause⟩]
      = if id = orderId then [cancelled] else [] := by
  rw [cancels_singleton, OutputEvent.cancelledQuantity?]
  split <;> rfl

theorem remaining_cons (o : RestingOrder) (os : List RestingOrder) : remaining orderId (o :: os)
    = (if o.orderId = orderId then o.quantity else 0) + remaining orderId os := by
  rw [remaining, List.filter_cons]
  by_cases heq : o.orderId = orderId <;> simp [remaining, heq]

/-- An event that is neither a trade nor a cancellation. -/
theorem account_silent {e : OutputEvent} (haggressor : e.aggressorQuantity orderId = 0)
    (hmaker : e.makerQuantity orderId = 0) (hcancel : e.cancelledQuantity? orderId = none) :
    account orderId [e] os = remaining orderId os := by
  simp [account, haggressor, hmaker, hcancel]

theorem account_cancelled (id filled cancelled : Int) (cause : CancelCause) :
    account orderId [.orderCancelled ⟨id, filled, cancelled, cause⟩] os
      = (if id = orderId then cancelled else 0) + remaining orderId os := by
  by_cases heq : id = orderId <;>
    simp [account, OutputEvent.aggressorQuantity, OutputEvent.makerQuantity,
      OutputEvent.cancelledQuantity?, heq]

theorem remaining_perm (orderId : Int) (h : os.Perm ps) : remaining orderId os = remaining orderId ps :=
  ((h.filter _).map amount).sum_eq

theorem tradedAsAggressor_fillEvents : tradedAsAggressor orderId (fillEvents taker q os)
    = if taker = orderId then ((takes q os).map Prod.snd).sum else 0 := by
  rw [fillEvents]
  induction takes q os with
  | nil => simp [tradedAsAggressor]
  | cons take takes ih =>
    rw [List.flatMap_cons, tradedAsAggressor_append, ih]
    have hpair : tradedAsAggressor orderId (takeEvents taker take)
        = if taker = orderId then take.2 else 0 := by
      rw [takeEvents]
      split <;> simp [tradedAsAggressor, OutputEvent.aggressorQuantity]
    rw [hpair]
    split <;> simp

theorem tradedAsMaker_fillEvents : tradedAsMaker orderId (fillEvents taker q os)
    = (((takes q os).filter fun take => take.1.orderId = orderId).map Prod.snd).sum := by
  rw [fillEvents]
  induction takes q os with
  | nil => simp [tradedAsMaker]
  | cons take takes ih =>
    rw [List.flatMap_cons, tradedAsMaker_append, ih]
    have hpair : tradedAsMaker orderId (takeEvents taker take)
        = if take.1.orderId = orderId then take.2 else 0 := by
      rw [takeEvents]
      split <;> simp [tradedAsMaker, OutputEvent.makerQuantity]
    rw [hpair, List.filter_cons]
    by_cases heq : take.1.orderId = orderId
    · simp [heq]
    · simp [heq]

theorem cancels_fillEvents : cancels orderId (fillEvents taker q os) = [] := by
  apply List.filterMap_eq_nil_iff.mpr
  apply forall_mem_fillEvents <;> exact fun _ => rfl

theorem cancels_append_fillEvents (emitted : List OutputEvent) :
    cancels orderId (fillEvents taker q os ++ emitted) = cancels orderId emitted := by
  rw [cancels_append, cancels_fillEvents, List.nil_append]

theorem traded_fillEvents : ((fillEvents taker q os).map OutputEvent.tradedQuantity).sum
    = ((takes q os).map Prod.snd).sum := by
  rw [fillEvents]
  induction takes q os with
  | nil => rfl
  | cons take takes ih =>
    rw [List.flatMap_cons, List.map_append, List.sum_append, ih, List.map_cons, List.sum_cons]
    congr 1
    rw [takeEvents]
    split <;> simp [OutputEvent.tradedQuantity]

end Sums

/-! ### One input -/

section Step

variable {b : PriorityBook} (h : b.Valid) (orderId : Int)

include h

/-- What the makers lose is what they trade. -/
theorem remaining_sweep (side : Side) (limit taker q : Int) :
    tradedAsMaker orderId (fillEvents taker q (b.makers side limit))
        + remaining orderId (b.sweep side limit q).orders
      = remaining orderId b.orders := by
  have hafter := remaining_perm orderId ((b.sweep side limit q).orders_perm side)
  have hbefore := remaining_perm orderId (b.orders_perm side)
  rw [sweep_same, sweep_opposite, remaining_append, remaining_append] at hafter
  rw [← h.makers_append_bystanders side limit, remaining_append, remaining_append] at hbefore
  have hmakers := total_filter_left (f := fun o : RestingOrder => o.orderId = orderId)
    (fun _ _ => rfl) q (b.makers side limit)
  rw [tradedAsMaker_fillEvents]
  simp only [remaining] at *
  omega

theorem account_addOrder (fillable : Bool) {event : AddOrderEvent} (hqty : 0 < event.quantity)
    (hfresh : event.orderId ∉ b.orders.map RestingOrder.orderId) :
    account orderId (b.addOrder fillable event).2 (b.addOrder fillable event).1.orders
      = remaining orderId b.orders + if event.orderId = orderId then event.quantity else 0 := by
  have hswept := remaining_sweep h orderId event.side event.price event.orderId event.quantity
  have htaken := taken_eq_min (h.positive_makers event.side event.price) hqty.le
  have hfreshSwept : event.orderId ∉ (b.sweep event.side event.price event.quantity).orders.map
      RestingOrder.orderId :=
    fun hmem => hfresh (sweep_orderIds_subset h _ _ _ hmem)
  have hfills : ∀ terminal os, account orderId
      (fillEvents event.orderId event.quantity (b.makers event.side event.price) ++ [terminal]) os
        = (if event.orderId = orderId then
            min event.quantity (total (b.makers event.side event.price)) else 0)
          + tradedAsMaker orderId
            (fillEvents event.orderId event.quantity (b.makers event.side event.price))
          + account orderId [terminal] os := by
    intro terminal os
    simp only [account, tradedAsAggressor_append, tradedAsMaker_append, cancels_append_fillEvents,
      tradedAsAggressor_fillEvents, htaken]
    omega
  apply addOrder_cases (P := fun b' emitted => account orderId emitted b'.orders = _)
  · intro _ _
    rw [account_cancelled]
    omega
  · intro hle
    rw [hfills, account_silent rfl rfl rfl, min_eq_left hle]
    omega
  · intro _ _ hmem
    exact absurd hmem hfreshSwept
  · intro hlt _ _
    have hrest := remaining_perm orderId (rest_orders_perm
      (b.sweep event.side event.price event.quantity) ⟨event.orderId, event.side, event.price,
        event.quantity - total (b.makers event.side event.price)⟩)
    rw [hfills, account_silent rfl rfl rfl, hrest, remaining_cons, min_eq_right hlt.le]
    simp only
    split <;> omega
  · intro cause hlt _
    rw [hfills, account_cancelled, min_eq_right hlt.le]
    split <;> omega

theorem remaining_withdraw {o : RestingOrder} (ho : o ∈ b.orders) :
    (if o.orderId = orderId then o.quantity else 0)
      + remaining orderId (b.withdraw o.orderId).orders = remaining orderId b.orders := by
  obtain ⟨side, hside⟩ := mem_orders.mp ho
  obtain ⟨os, ps, hsplit⟩ := List.append_of_mem hside
  have hbefore := remaining_perm orderId (b.orders_perm side)
  have hafter := remaining_perm orderId ((b.withdraw o.orderId).orders_perm side)
  rw [hsplit, remaining_append, remaining_append, remaining_cons] at hbefore
  rw [withdraw_eq_update h hsplit, Function.update_self,
    Function.update_of_ne (Side.opposite_ne side), remaining_append, remaining_append] at hafter
  rw [withdraw_eq_update h hsplit]
  omega

/-- **One input.** It brings an account what it says it does. -/
theorem account_onInput (fillable : Bool) {event : InputEvent}
    (hfresh : ∀ add, event = .addOrder add → add.orderId ∉ b.orders.map RestingOrder.orderId) :
    account orderId (b.onInput fillable event).2 (b.onInput fillable event).1.orders
      = remaining orderId b.orders + event.brings orderId := by
  cases event with
  | shutdown => simp [PriorityBook.onInput, account, tradedAsAggressor, tradedAsMaker, cancels,
      InputEvent.brings]
  | addOrder event =>
    apply onAddOrder_cases (P := fun b' emitted => account orderId emitted b'.orders = _)
    · intro rejectCode hnot
      rw [account_silent rfl rfl rfl, InputEvent.brings, if_neg fun hand => hnot hand.1, Int.add_zero]
    · intro haccepted
      rw [account_addOrder h orderId fillable haccepted.2.1 (hfresh event rfl), InputEvent.brings]
      simp only [haccepted, true_and]
  | cancelOrder event =>
    have hbrings : InputEvent.brings orderId (.cancelOrder event) = 0 := rfl
    rw [hbrings, Int.add_zero]
    apply onCancelOrder_cases (P := fun b' emitted => account orderId emitted b'.orders = _)
    · intro rejectCode
      exact account_silent rfl rfl rfl
    · intro o ho _
      rw [account_cancelled]
      exact remaining_withdraw h orderId ho

/-- Only an add brings an id into the book. -/
theorem orderIds_onInput (fillable : Bool) (event : InputEvent) :
    (b.onInput fillable event).1.orders.map RestingOrder.orderId ⊆
      b.orders.map RestingOrder.orderId ++ event.addId?.toList := by
  have hsame := List.subset_append_left (b.orders.map RestingOrder.orderId) event.addId?.toList
  cases event with
  | shutdown => exact hsame
  | addOrder event =>
    have hswept := List.Subset.trans
      (sweep_orderIds_subset h event.side event.price event.quantity) hsame
    apply onAddOrder_cases (P := fun b' _ => b'.orders.map RestingOrder.orderId ⊆ _)
    · intro _ _
      exact hsame
    intro _
    apply addOrder_cases (P := fun b' _ => b'.orders.map RestingOrder.orderId ⊆ _)
    · intro _ _
      exact hsame
    · intro _
      exact hswept
    · intro _ _ _
      exact hswept
    · intro _ _ _ id hmem
      rw [((rest_orders_perm ..).map _).mem_iff, List.map_cons, List.mem_cons] at hmem
      rcases hmem with rfl | hmem
      · exact List.mem_append_right _ (List.mem_singleton_self _)
      · exact hswept hmem
    · intro _ _ _
      exact hswept
  | cancelOrder event =>
    apply onCancelOrder_cases (P := fun b' _ => b'.orders.map RestingOrder.orderId ⊆ _)
    · intro _
      exact hsame
    · intro o _ _
      have hsub : (b.withdraw o.orderId).orders.Sublist b.orders :=
        List.filter_sublist.append List.filter_sublist
      exact List.Subset.trans (hsub.map _).subset hsame

/-- An id whose quantity is cancelled is out of the book with it. -/
theorem cancels_onInput (fillable : Bool) {event : InputEvent} (id : Int)
    (hfresh : ∀ add, event = .addOrder add → add.orderId ∉ b.orders.map RestingOrder.orderId) :
    cancels id (b.onInput fillable event).2 = [] ∨
      (cancels id (b.onInput fillable event).2).length = 1 ∧
        id ∉ (b.onInput fillable event).1.orders.map RestingOrder.orderId ∧
        id ∈ b.orders.map RestingOrder.orderId ++ event.addId?.toList := by
  cases event with
  | shutdown => exact Or.inl rfl
  | addOrder event =>
    have hnot := hfresh event rfl
    have hmem : event.orderId ∈ b.orders.map RestingOrder.orderId
        ++ (InputEvent.addOrder event).addId?.toList :=
      List.mem_append_right _ (List.mem_singleton_self _)
    apply onAddOrder_cases (P := fun b' emitted => cancels id emitted = [] ∨
      (cancels id emitted).length = 1 ∧ id ∉ b'.orders.map RestingOrder.orderId ∧ _)
    · intro _ _
      exact Or.inl rfl
    intro _
    apply addOrder_cases (P := fun b' emitted => cancels id emitted = [] ∨
      (cancels id emitted).length = 1 ∧ id ∉ b'.orders.map RestingOrder.orderId ∧ _)
    · intro _ _
      rw [cancels_cancelled]
      by_cases heq : event.orderId = id
      · subst heq
        exact Or.inr ⟨by simp, hnot, hmem⟩
      · exact Or.inl (if_neg heq)
    · intro _
      exact Or.inl (cancels_append_fillEvents _)
    · intro _ _ _
      exact Or.inl (cancels_append_fillEvents _)
    · intro _ _ _
      exact Or.inl (cancels_append_fillEvents _)
    · intro cause _ _
      rw [cancels_append_fillEvents, cancels_cancelled]
      by_cases heq : event.orderId = id
      · subst heq
        exact Or.inr ⟨by simp, fun hswept => hnot (sweep_orderIds_subset h _ _ _ hswept), hmem⟩
      · exact Or.inl (if_neg heq)
  | cancelOrder event =>
    apply onCancelOrder_cases (P := fun b' emitted => cancels id emitted = [] ∨
      (cancels id emitted).length = 1 ∧ id ∉ b'.orders.map RestingOrder.orderId ∧ _)
    · intro _
      exact Or.inl rfl
    · intro o ho _
      rw [cancels_cancelled]
      by_cases heq : o.orderId = id
      · subst heq
        refine Or.inr ⟨by simp, ?_, List.mem_append_left _ (List.mem_map_of_mem ho)⟩
        intro hmem
        obtain ⟨p, hp, hpid⟩ := List.mem_map.mp hmem
        obtain ⟨side, hside⟩ := mem_orders.mp hp
        have hkept := (List.mem_filter.mp hside).2
        simp [hpid] at hkept
      · exact Or.inl (if_neg heq)

/-- The terminal event of an add with a new id accounts for its quantity. -/
theorem addOrder_settles (fillable : Bool) {event : AddOrderEvent} (hqty : 0 < event.quantity)
    (hfresh : event.orderId ∉ b.orders.map RestingOrder.orderId) :
    ∃ fills terminal, (b.addOrder fillable event).2 = fills ++ [terminal] ∧
      terminal.Settles event ((b.addOrder fillable event).2.map OutputEvent.tradedQuantity).sum := by
  have htaken := taken_eq_min (h.positive_makers event.side event.price) hqty.le
  refine @addOrder_cases (fun _ emitted => ∃ fills terminal, emitted = fills ++ [terminal] ∧
    terminal.Settles event (emitted.map OutputEvent.tradedQuantity).sum) b fillable event
    ?_ ?_ ?_ ?_ ?_
  · intro _ _
    exact ⟨[], _, rfl, rfl, rfl, by simp⟩
  · intro hle
    refine ⟨_, _, rfl, rfl, ?_, rfl⟩
    rw [List.map_append, List.sum_append, traded_fillEvents, htaken, min_eq_left hle]
    simp [OutputEvent.tradedQuantity]
  · intro _ _ hmem
    exact absurd (sweep_orderIds_subset h _ _ _ hmem) hfresh
  · intro hlt _ _
    refine ⟨_, _, rfl, rfl, ?_, by simp only; omega⟩
    rw [List.map_append, List.sum_append, traded_fillEvents, htaken, min_eq_right hlt.le]
    simp [OutputEvent.tradedQuantity]
  · intro cause hlt _
    refine ⟨_, _, rfl, rfl, ?_, by simp only; omega⟩
    rw [List.map_append, List.sum_append, traded_fillEvents, htaken, min_eq_right hlt.le]
    simp [OutputEvent.tradedQuantity]

end Step

/-! ### Runs -/

/-- The books of a run: only added ids rest, every account holds what was brought to it, and no id
is cancelled twice. -/
structure Balanced (events : List InputEvent) (emitted : List OutputEvent) (b : PriorityBook) :
    Prop where
  added : b.orders.map RestingOrder.orderId ⊆ addIds events
  account_eq : ∀ orderId, account orderId emitted b.orders
    = (events.map (InputEvent.brings orderId)).sum
  cancelled : ∀ orderId, cancels orderId emitted = [] ∨
    (cancels orderId emitted).length = 1 ∧ orderId ∉ b.orders.map RestingOrder.orderId ∧
      orderId ∈ addIds events

theorem addIds_append (events more : List InputEvent) :
    addIds (events ++ more) = addIds events ++ addIds more :=
  List.filterMap_append ..

theorem addIds_singleton (event : InputEvent) : addIds [event] = event.addId?.toList := by
  cases event <;> rfl

theorem addIds_cons (event : InputEvent) (events : List InputEvent) :
    addIds (event :: events) = event.addId?.toList ++ addIds events := by
  rw [← List.singleton_append, addIds_append, addIds_singleton]

variable {T : SignedInt} {c : Clob} {levels : Side → List (List Slot)}

theorem Balanced.onInput {events : List InputEvent} {emitted : List OutputEvent} {b : PriorityBook}
    (hbalanced : Balanced events emitted b) (h : b.Valid) (fillable : Bool) {event : InputEvent}
    (hnodup : (addIds (events ++ [event])).Nodup) :
    Balanced (events ++ [event]) (emitted ++ (b.onInput fillable event).2)
      (b.onInput fillable event).1 := by
  rw [addIds_append, addIds_singleton, List.nodup_append] at hnodup
  have hnew : ∀ id ∈ event.addId?.toList, id ∉ addIds events := fun id hid hmem =>
    hnodup.2.2 id hmem id hid rfl
  have hfresh : ∀ add, event = .addOrder add →
      add.orderId ∉ b.orders.map RestingOrder.orderId := by
    intro add heq hmem
    subst heq
    exact hnew add.orderId (List.mem_singleton_self _) (hbalanced.added hmem)
  have hids := orderIds_onInput h fillable event
  refine ⟨?_, ?_, ?_⟩
  · rw [addIds_append, addIds_singleton]
    intro id hid
    exact List.mem_append.mpr ((List.mem_append.mp (hids hid)).imp_left (hbalanced.added ·))
  · intro orderId
    have hstep := account_onInput h orderId fillable hfresh
    have hbefore := hbalanced.account_eq orderId
    simp only [account, tradedAsAggressor_append, tradedAsMaker_append, cancels_append,
      List.sum_append, List.map_append, List.map_singleton, List.sum_singleton] at hstep hbefore ⊢
    omega
  · intro orderId
    rw [cancels_append, addIds_append, addIds_singleton]
    rcases hbalanced.cancelled orderId with hnil | ⟨hlength, hout, hadded⟩
    · rw [hnil, List.nil_append]
      refine (cancels_onInput h fillable orderId hfresh).imp_right ?_
      intro ⟨hone, hgone, hmem⟩
      exact ⟨hone, hgone, List.mem_append.mpr ((List.mem_append.mp hmem).imp_left (hbalanced.added ·))⟩
    · -- an id that is out of the book is neither cancelled again nor added again
      have hnotNew : orderId ∉ event.addId?.toList := fun hid => hnew orderId hid hadded
      have hnot : orderId ∉ b.orders.map RestingOrder.orderId ++ event.addId?.toList := by
        rw [List.mem_append, not_or]
        exact ⟨hout, hnotNew⟩
      have hnone : cancels orderId (b.onInput fillable event).2 = [] :=
        (cancels_onInput h fillable orderId hfresh).resolve_right fun hsome => hnot hsome.2.2
      rw [hnone, List.append_nil]
      exact Or.inr ⟨hlength, fun hmem => hnot (hids hmem), List.mem_append_left _ hadded⟩

theorem Balanced.run {events more : List InputEvent} {emitted : List OutputEvent}
    (hbalanced : Balanced events emitted (bookOf levels)) (h : Represents T c levels)
    (hfits : ∀ event ∈ more, event.Fits T) (hnodup : (addIds (events ++ more)).Nodup) :
    ∃ c' later levels', c.run T more = .ok (c', later) ∧ Represents T c' levels' ∧
      Balanced (events ++ more) (emitted ++ later) (bookOf levels') := by
  induction more generalizing c levels events emitted with
  | nil => exact ⟨c, [], levels, rfl, h, by simpa using hbalanced⟩
  | cons event more ih =>
    have hsplit : events ++ event :: more = (events ++ [event]) ++ more := by simp
    rw [hsplit] at hnodup ⊢
    have hprefix : (addIds (events ++ [event])).Nodup := by
      rw [addIds_append, List.nodup_append] at hnodup
      exact hnodup.1
    obtain ⟨c₁, levels₁, hinput, hbecomes⟩ := h.onInput (hfits event (List.mem_cons_self ..))
    have hstep := hbalanced.onInput h.valid (c.probe T event) hprefix
    rw [← hbecomes.book_eq] at hstep
    obtain ⟨c₂, later, levels₂, hrun, hc₂, hafter⟩ := ih hstep hbecomes.represents
      (fun e he => hfits e (List.mem_cons_of_mem _ he)) hnodup
    refine ⟨c₂, ((bookOf levels).onInput (c.probe T event) event).2 ++ later, levels₂, ?_, hc₂, ?_⟩
    · simp only [Clob.run, hinput, ok_bind, hrun]
      rfl
    · rwa [List.append_assoc emitted] at hafter

theorem balanced_empty : Balanced [] [] fun _ => [] where
  added := by simp [PriorityBook.orders]
  account_eq orderId := by
    simp [account, tradedAsAggressor, tradedAsMaker, cancels, remaining, PriorityBook.orders]
  cancelled _ := Or.inl rfl

theorem brings_sum_eq_zero {orderId : Int} {events : List InputEvent} (h : orderId ∉ addIds events) :
    (events.map (InputEvent.brings orderId)).sum = 0 := by
  induction events with
  | nil => rfl
  | cons event events ih =>
    rw [List.map_cons, List.sum_cons]
    rw [addIds_cons, List.mem_append, not_or] at h
    rw [ih h.2, Int.add_zero]
    cases event with
    | addOrder event =>
      have hne : event.orderId ≠ orderId := fun heq => h.1 (heq ▸ List.mem_singleton_self _)
      exact if_neg fun hand => hne hand.2
    | cancelOrder event => rfl
    | shutdown => rfl

/-- Only the add itself brings anything to the account of its id. -/
theorem brings_sum_eq {before after : List InputEvent} {add : AddOrderEvent}
    (hnodup : (addIds (before ++ .addOrder add :: after)).Nodup) (haccepted : add.Accepted) :
    ((before ++ .addOrder add :: after).map (InputEvent.brings add.orderId)).sum = add.quantity := by
  have hsplit : addIds (before ++ .addOrder add :: after)
      = addIds before ++ add.orderId :: addIds after := by
    rw [addIds_append]
    rfl
  rw [hsplit, List.nodup_append, List.nodup_cons] at hnodup
  have hbefore : add.orderId ∉ addIds before := fun hmem =>
    hnodup.2.2 _ hmem _ (List.mem_cons_self ..) rfl
  rw [List.map_append, List.sum_append, brings_sum_eq_zero hbefore, List.map_cons, List.sum_cons,
    brings_sum_eq_zero hnodup.2.1.1, Int.zero_add, Int.add_zero]
  exact if_pos ⟨haccepted, rfl⟩

/-- The resting quantity of an id, as an observer of the memory sees it. -/
def Clob.remaining (c : Clob) (orderId : Int) : Int :=
  MatchingEngine.remaining orderId (c.restingOrders .buy ++ c.restingOrders .sell)

theorem Represents.remaining_eq (h : Represents T c levels) (orderId : Int) :
    c.remaining orderId = MatchingEngine.remaining orderId (bookOf levels).orders := by
  rw [Clob.remaining, h.restingOrders_eq, h.restingOrders_eq]
  rfl

/-- **Quantity is conserved.** For an accepted add of a run in which no two adds share an id, and at
every later moment: its quantity is what its id traded on either side, what a CAN reported as
cancelled, of which there is at most one, and what still rests. Its own terminal event accounts for
the quantity as well. -/
theorem run_conserves (T : SignedInt) (before after : List InputEvent) (add : AddOrderEvent)
    (hfits : ∀ event ∈ before ++ .addOrder add :: after, event.Fits T)
    (hnodup : (addIds (before ++ .addOrder add :: after)).Nodup) (haccepted : add.Accepted) :
    ∃ c₀ emitted₀ c₁ emitted₁ c₂ emitted₂,
      Clob.run T {} before = .ok (c₀, emitted₀) ∧
      c₀.onInput T (.addOrder add) = .ok (c₁, emitted₁) ∧
      c₁.run T after = .ok (c₂, emitted₂) ∧
      add.quantity = tradedAsAggressor add.orderId (emitted₀ ++ emitted₁ ++ emitted₂)
        + tradedAsMaker add.orderId (emitted₀ ++ emitted₁ ++ emitted₂)
        + (cancels add.orderId (emitted₀ ++ emitted₁ ++ emitted₂)).sum
        + c₂.remaining add.orderId ∧
      (cancels add.orderId (emitted₀ ++ emitted₁ ++ emitted₂)).length ≤ 1 ∧
      ∃ fills terminal, emitted₁ = fills ++ [terminal] ∧
        terminal.Settles add (emitted₁.map OutputEvent.tradedQuantity).sum := by
  have hsplit : before ++ .addOrder add :: after = (before ++ [.addOrder add]) ++ after := by simp
  have hsum := brings_sum_eq hnodup haccepted
  rw [hsplit] at hnodup hsum
  have hnodup₁ : (addIds (before ++ [.addOrder add])).Nodup := by
    rw [addIds_append, List.nodup_append] at hnodup
    exact hnodup.1
  have hnodup₀ : (addIds before).Nodup := by
    rw [addIds_append, List.nodup_append] at hnodup₁
    exact hnodup₁.1
  obtain ⟨c₀, emitted₀, levels₀, hrun₀, hc₀, hbalanced₀⟩ := balanced_empty.run (represents_empty T)
    (fun e he => hfits e (List.mem_append_left _ he)) (by simpa using hnodup₀)
  simp only [List.nil_append] at hbalanced₀
  obtain ⟨c₁, levels₁, hinput, hbecomes⟩ := hc₀.onInput
    (hfits (.addOrder add) (List.mem_append_right _ (List.mem_cons_self ..)))
  have hbalanced₁ := hbalanced₀.onInput hc₀.valid (c₀.probe T (.addOrder add)) hnodup₁
  rw [← hbecomes.book_eq] at hbalanced₁
  obtain ⟨c₂, emitted₂, levels₂, hrun₂, hc₂, hbalanced₂⟩ := hbalanced₁.run hbecomes.represents
    (fun e he => hfits e (List.mem_append_right _ (List.mem_cons_of_mem _ he))) hnodup
  refine ⟨c₀, emitted₀, c₁, _, c₂, emitted₂, hrun₀, hinput, hrun₂, ?_, ?_, ?_⟩
  · have haccount := hbalanced₂.account_eq add.orderId
    rw [account, hsum] at haccount
    rw [hc₂.remaining_eq]
    exact haccount.symm
  · rcases hbalanced₂.cancelled add.orderId with hnil | ⟨hone, -⟩
    · rw [show cancels add.orderId _ = [] from hnil]
      exact Nat.zero_le 1
    · exact hone.le
  · have hfresh : add.orderId ∉ (bookOf levels₀).orders.map RestingOrder.orderId := by
      intro hmem
      rw [addIds_append, List.nodup_append] at hnodup₁
      exact hnodup₁.2.2 _ (hbalanced₀.added hmem) _ (List.mem_singleton_self _) rfl
    have hadd : (bookOf levels₀).onInput (c₀.probe T (.addOrder add)) (.addOrder add)
        = (bookOf levels₀).addOrder (c₀.probe T (.addOrder add)) add := by
      simp only [PriorityBook.onInput, PriorityBook.onAddOrder, not_le.mpr haccepted.1,
        not_le.mpr haccepted.2.1, not_le.mpr haccepted.2.2, if_false]
    rw [hadd]
    exact addOrder_settles hc₀.valid _ haccepted.2.1 hfresh

/-- A buy that takes a resting sell, rests, is taken from in its turn and then withdrawn. -/
theorem run_conserves_withdrawn :
    ∃ c₀ emitted₀ c₁ emitted₁ c₂ emitted₂,
      Clob.run .int64 {} [.addOrder ⟨1, .sell, 5, 100, .gtc⟩] = .ok (c₀, emitted₀) ∧
      c₀.onInput .int64 (.addOrder ⟨2, .buy, 9, 100, .gtc⟩) = .ok (c₁, emitted₁) ∧
      c₁.run .int64 [.addOrder ⟨3, .sell, 1, 99, .ioc⟩, .cancelOrder ⟨2⟩] = .ok (c₂, emitted₂) ∧
      9 = tradedAsAggressor 2 (emitted₀ ++ emitted₁ ++ emitted₂)
        + tradedAsMaker 2 (emitted₀ ++ emitted₁ ++ emitted₂)
        + (cancels 2 (emitted₀ ++ emitted₁ ++ emitted₂)).sum + c₂.remaining 2 ∧
      (cancels 2 (emitted₀ ++ emitted₁ ++ emitted₂)).length ≤ 1 ∧
      ∃ fills terminal, emitted₁ = fills ++ [terminal] ∧
        terminal.Settles ⟨2, .buy, 9, 100, .gtc⟩ (emitted₁.map OutputEvent.tradedQuantity).sum :=
  run_conserves .int64 _ _ ⟨2, .buy, 9, 100, .gtc⟩ (by decide +kernel) (by decide) (by decide)

end MatchingEngine
