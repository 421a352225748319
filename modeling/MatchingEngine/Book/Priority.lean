import Mathlib.Data.List.Perm.Basic
import MatchingEngine.Lib.GreedyFill
import MatchingEngine.Model.OrderBook

/-!
# Matching by price-time priority

What the order book is for, said without pointers, levels or totals: each side is the queue of its
resting orders in the order in which they are matched, best price first and first come first served
within a price. An incoming order fills its demand greedily from the part of the opposite queue that
its limit crosses; what rests enters its own queue behind every order that is not worse priced.

`Valid` collects what is true of such a book at every moment, and `Valid.onInput` that every input
keeps it. The fill-or-kill decision is an argument here: the code takes it from cached totals, and
what those are worth depends on the integer type.
-/

namespace MatchingEngine

open Divisible

structure RestingOrder where
  orderId : Int
  side : Side
  price : Int
  quantity : Int
  deriving DecidableEq, Repr

instance : Divisible RestingOrder where
  amount := RestingOrder.quantity
  withAmount q o := { o with quantity := q }
  amount_withAmount _ _ := rfl

@[simp] theorem amount_restingOrder (o : RestingOrder) : amount o = o.quantity := rfl

/-- The orders of a side that a limit crosses. -/
def crossed (side : Side) (limit : Int) (os : List RestingOrder) : List RestingOrder :=
  os.filter fun o => Crosses side limit o.price

def uncrossed (side : Side) (limit : Int) (os : List RestingOrder) : List RestingOrder :=
  os.filter fun o => ¬ Crosses side limit o.price

/-- Best first: no order stands behind a worse priced one. -/
def Ranked (side : Side) (os : List RestingOrder) : Prop :=
  os.Pairwise fun o p => ¬ RestingLevelsCompare side p.price o.price

theorem Ranked.crossed_eq_nil {side : Side} {limit : Int} {o : RestingOrder}
    {os : List RestingOrder} (h : Ranked side (o :: os)) (hcross : ¬ Crosses side limit o.price) :
    crossed side limit (o :: os) = [] := by
  refine List.filter_eq_nil_iff.mpr fun p hp => ?_
  rw [decide_eq_true_iff]
  rcases List.mem_cons.mp hp with rfl | hp
  · exact hcross
  · have hle := (List.pairwise_cons.mp h).1 p hp
    cases side <;> simp only [Crosses, RestingLevelsCompare] at * <;> omega

/-- The crossed orders stand in front of the others. -/
theorem Ranked.crossed_append_uncrossed {side : Side} {os : List RestingOrder}
    (h : Ranked side os) (limit : Int) : crossed side limit os ++ uncrossed side limit os = os := by
  induction os with
  | nil => rfl
  | cons o os ih =>
    have ih := ih (List.pairwise_cons.mp h).2
    by_cases hcross : Crosses side limit o.price
    · rw [crossed, uncrossed, List.filter_cons_of_pos (by simpa using hcross),
        List.filter_cons_of_neg (by simpa using hcross), List.cons_append, ← crossed, ← uncrossed, ih]
    · have hnil := h.crossed_eq_nil hcross
      have hall : uncrossed side limit (o :: os) = o :: os := by
        refine List.filter_eq_self.mpr fun p hp => ?_
        have hnot := (List.filter_eq_nil_iff.mp hnil) p hp
        simpa using hnot
      rw [hnil, hall, List.nil_append]

theorem crossed_append (side : Side) (limit : Int) (as bs : List RestingOrder) :
    crossed side limit (as ++ bs) = crossed side limit as ++ crossed side limit bs :=
  List.filter_append ..

theorem uncrossed_append (side : Side) (limit : Int) (as bs : List RestingOrder) :
    uncrossed side limit (as ++ bs) = uncrossed side limit as ++ uncrossed side limit bs :=
  List.filter_append ..

theorem crossed_sublist (side : Side) (limit : Int) (os : List RestingOrder) :
    (crossed side limit os).Sublist os :=
  List.filter_sublist

/-- An add that passes the field checks. -/
def AddOrderEvent.Accepted (event : AddOrderEvent) : Prop :=
  0 < event.orderId ∧ 0 < event.quantity ∧ 0 < event.price

instance (event : AddOrderEvent) : Decidable event.Accepted := inferInstanceAs (Decidable (_ ∧ _ ∧ _))

/-- The queue of each side, best first. -/
abbrev PriorityBook := Side → List RestingOrder

namespace PriorityBook

def orders (b : PriorityBook) : List RestingOrder := b .buy ++ b .sell

def find? (b : PriorityBook) (orderId : Int) : Option RestingOrder :=
  b.orders.find? fun o => o.orderId = orderId

/-- The opposite orders that a limit crosses. -/
def makers (b : PriorityBook) (side : Side) (limit : Int) : List RestingOrder :=
  crossed side.opposite limit (b side.opposite)

def bystanders (b : PriorityBook) (side : Side) (limit : Int) : List RestingOrder :=
  uncrossed side.opposite limit (b side.opposite)

/-- The book after a demand on the orders that a limit crosses. -/
def sweep (b : PriorityBook) (side : Side) (limit q : Int) : PriorityBook :=
  Function.update b side.opposite (left q (b.makers side limit) ++ b.bystanders side limit)

/-- Enter an order behind every order that is not worse priced. -/
def enqueue (o : RestingOrder) : List RestingOrder → List RestingOrder
  | [] => [o]
  | p :: ps => if RestingLevelsCompare o.side o.price p.price then o :: p :: ps else p :: enqueue o ps

def rest (b : PriorityBook) (o : RestingOrder) : PriorityBook :=
  Function.update b o.side (enqueue o (b o.side))

def withdraw (b : PriorityBook) (orderId : Int) : PriorityBook := fun side =>
  (b side).filter fun o => o.orderId ≠ orderId

/-- What a take is announced with: the trade, and the maker's new state. -/
def takeEvents (taker : Int) (take : RestingOrder × Int) : List OutputEvent :=
  [.trade ⟨taker, take.1.orderId, take.2⟩,
    if take.2 = take.1.quantity then .orderFilled ⟨take.1.orderId, take.2⟩
    else .orderResting ⟨take.1.orderId, take.2, take.1.quantity - take.2⟩]

def fillEvents (taker q : Int) (os : List RestingOrder) : List OutputEvent :=
  (takes q os).flatMap (takeEvents taker)

/-- Filling announces trades and what became of the makers, nothing else. -/
theorem forall_mem_fillEvents {P : OutputEvent → Prop} (htrade : ∀ t, P (.trade t))
    (hfilled : ∀ f, P (.orderFilled f)) (hresting : ∀ r, P (.orderResting r)) (taker q : Int)
    (os : List RestingOrder) : ∀ e ∈ fillEvents taker q os, P e := by
  intro e he
  obtain ⟨take, -, hmem⟩ := List.mem_flatMap.mp he
  obtain rfl | hmaker := List.mem_cons.mp hmem
  · exact htrade _
  · rw [List.mem_singleton.mp hmaker]
    split
    · exact hfilled _
    · exact hresting _

section NotMem

variable {taker q : Int} {os : List RestingOrder}

theorem not_mem_fillEvents {e : OutputEvent} (htrade : ∀ t, .trade t ≠ e)
    (hfilled : ∀ f, .orderFilled f ≠ e) (hresting : ∀ r, .orderResting r ≠ e) :
    e ∉ fillEvents taker q os := by
  intro hmem
  exact forall_mem_fillEvents (P := (· ≠ e)) htrade hfilled hresting taker q os e hmem rfl

@[simp] theorem orderRejected_not_mem_fillEvents (rejection : OrderRejectedEvent) :
    .orderRejected rejection ∉ fillEvents taker q os :=
  not_mem_fillEvents nofun nofun nofun

@[simp] theorem orderCancelled_not_mem_fillEvents (cancelled : OrderCancelledEvent) :
    .orderCancelled cancelled ∉ fillEvents taker q os :=
  not_mem_fillEvents nofun nofun nofun

@[simp] theorem shutdown_not_mem_fillEvents : .shutdown ∉ fillEvents taker q os :=
  not_mem_fillEvents nofun nofun nofun

end NotMem

def addOrder (b : PriorityBook) (fillable : Bool) (event : AddOrderEvent) :
    PriorityBook × List OutputEvent :=
  if event.tif = .fok ∧ fillable = false then
    (b, [.orderCancelled ⟨event.orderId, 0, event.quantity, .fillOrKill⟩])
  else
    let makers := b.makers event.side event.price
    let filled := min event.quantity (total makers)
    let residue := event.quantity - filled
    let swept := b.sweep event.side event.price event.quantity
    let fills := fillEvents event.orderId event.quantity makers
    if residue = 0 then (swept, fills ++ [.orderFilled ⟨event.orderId, filled⟩])
    else if event.tif = .gtc then
      if event.orderId ∈ swept.orders.map RestingOrder.orderId then
        (swept, fills ++ [.orderRejected ⟨event.orderId, .duplicateOrderId⟩])
      else
        (swept.rest ⟨event.orderId, event.side, event.price, residue⟩,
          fills ++ [.orderResting ⟨event.orderId, filled, residue⟩])
    else
      let cause := if event.tif = .ioc then .immediateOrCancel else .fillOrKill
      (swept, fills ++ [.orderCancelled ⟨event.orderId, filled, residue, cause⟩])

/-- The ways an add can go once its fields are good. -/
theorem addOrder_cases {P : PriorityBook → List OutputEvent → Prop} {b : PriorityBook}
    {fillable : Bool} {event : AddOrderEvent}
    (hkilled : event.tif = .fok → fillable = false →
      P b [.orderCancelled ⟨event.orderId, 0, event.quantity, .fillOrKill⟩])
    (hfilled : event.quantity ≤ total (b.makers event.side event.price) →
      P (b.sweep event.side event.price event.quantity)
        (fillEvents event.orderId event.quantity (b.makers event.side event.price)
          ++ [.orderFilled ⟨event.orderId, event.quantity⟩]))
    (hduplicate : total (b.makers event.side event.price) < event.quantity → event.tif = .gtc →
      event.orderId ∈
        (b.sweep event.side event.price event.quantity).orders.map RestingOrder.orderId →
      P (b.sweep event.side event.price event.quantity)
        (fillEvents event.orderId event.quantity (b.makers event.side event.price)
          ++ [.orderRejected ⟨event.orderId, .duplicateOrderId⟩]))
    (hrests : total (b.makers event.side event.price) < event.quantity → event.tif = .gtc →
      event.orderId ∉
        (b.sweep event.side event.price event.quantity).orders.map RestingOrder.orderId →
      P ((b.sweep event.side event.price event.quantity).rest ⟨event.orderId, event.side, event.price,
          event.quantity - total (b.makers event.side event.price)⟩)
        (fillEvents event.orderId event.quantity (b.makers event.side event.price)
          ++ [.orderResting ⟨event.orderId, total (b.makers event.side event.price),
            event.quantity - total (b.makers event.side event.price)⟩]))
    (hcancelled : ∀ cause, total (b.makers event.side event.price) < event.quantity →
      event.tif ≠ .gtc →
      P (b.sweep event.side event.price event.quantity)
        (fillEvents event.orderId event.quantity (b.makers event.side event.price)
          ++ [.orderCancelled ⟨event.orderId, total (b.makers event.side event.price),
            event.quantity - total (b.makers event.side event.price), cause⟩])) :
    P (b.addOrder fillable event).1 (b.addOrder fillable event).2 := by
  simp only [addOrder]
  by_cases hkill : event.tif = .fok ∧ fillable = false
  · rw [if_pos hkill]
    exact hkilled hkill.1 hkill.2
  rw [if_neg hkill]
  by_cases hle : event.quantity ≤ total (b.makers event.side event.price)
  · rw [min_eq_left hle, if_pos (Int.sub_self _)]
    exact hfilled hle
  have hlt : total (b.makers event.side event.price) < event.quantity := by omega
  rw [min_eq_right hlt.le, if_neg (by omega)]
  by_cases hgtc : event.tif = .gtc
  · rw [if_pos hgtc]
    by_cases hmem : event.orderId ∈
        (b.sweep event.side event.price event.quantity).orders.map RestingOrder.orderId
    · rw [if_pos hmem]
      exact hduplicate hlt hgtc hmem
    · rw [if_neg hmem]
      exact hrests hlt hgtc hmem
  · rw [if_neg hgtc]
    exact hcancelled _ hlt hgtc

def onAddOrder (b : PriorityBook) (fillable : Bool) (event : AddOrderEvent) :
    PriorityBook × List OutputEvent :=
  if event.orderId ≤ 0 then (b, [.orderRejected ⟨event.orderId, .invalidOrderId⟩])
  else if event.quantity ≤ 0 then (b, [.orderRejected ⟨event.orderId, .invalidQuantity⟩])
  else if event.price ≤ 0 then (b, [.orderRejected ⟨event.orderId, .invalidPrice⟩])
  else b.addOrder fillable event

def onCancelOrder (b : PriorityBook) (event : CancelOrderEvent) : PriorityBook × List OutputEvent :=
  if event.orderId ≤ 0 then (b, [.orderRejected ⟨event.orderId, .invalidOrderId⟩])
  else
    match b.find? event.orderId with
    | none => (b, [.orderRejected ⟨event.orderId, .unknownOrderId⟩])
    | some o => (b.withdraw event.orderId, [.orderCancelled ⟨event.orderId, 0, o.quantity, .userRequest⟩])

def onInput (b : PriorityBook) (fillable : Bool) : InputEvent → PriorityBook × List OutputEvent
  | .addOrder event => b.onAddOrder fillable event
  | .cancelOrder event => b.onCancelOrder event
  | .shutdown => (b, [])

theorem onAddOrder_cases {P : PriorityBook → List OutputEvent → Prop} {b : PriorityBook}
    {fillable : Bool} {event : AddOrderEvent}
    (hrejected : ∀ rejectCode, ¬ event.Accepted → P b [.orderRejected ⟨event.orderId, rejectCode⟩])
    (haccepted : event.Accepted → P (b.addOrder fillable event).1 (b.addOrder fillable event).2) :
    P (b.onAddOrder fillable event).1 (b.onAddOrder fillable event).2 := by
  simp only [onAddOrder]
  by_cases hid : event.orderId ≤ 0
  · rw [if_pos hid]
    exact hrejected _ fun haccepted => absurd haccepted.1 (not_lt.mpr hid)
  rw [if_neg hid]
  by_cases hqty : event.quantity ≤ 0
  · rw [if_pos hqty]
    exact hrejected _ fun haccepted => absurd haccepted.2.1 (not_lt.mpr hqty)
  rw [if_neg hqty]
  by_cases hprice : event.price ≤ 0
  · rw [if_pos hprice]
    exact hrejected _ fun haccepted => absurd haccepted.2.2 (not_lt.mpr hprice)
  rw [if_neg hprice]
  exact haccepted ⟨not_le.mp hid, not_le.mp hqty, not_le.mp hprice⟩

theorem onCancelOrder_cases {P : PriorityBook → List OutputEvent → Prop} {b : PriorityBook}
    {event : CancelOrderEvent}
    (hrejected : ∀ rejectCode, P b [.orderRejected ⟨event.orderId, rejectCode⟩])
    (hcancelled : ∀ o ∈ b.orders, o.orderId = event.orderId → P (b.withdraw o.orderId)
      [.orderCancelled ⟨o.orderId, 0, o.quantity, .userRequest⟩]) :
    P (b.onCancelOrder event).1 (b.onCancelOrder event).2 := by
  simp only [onCancelOrder]
  by_cases hid : event.orderId ≤ 0
  · rw [if_pos hid]
    exact hrejected _
  rw [if_neg hid]
  cases hfind : b.find? event.orderId with
  | none => exact hrejected _
  | some o =>
    have hoid : o.orderId = event.orderId := by simpa using List.find?_some hfind
    rw [← hoid]
    exact hcancelled o (List.mem_of_find?_eq_some hfind) hoid

/-! ### What is true of a book -/

structure Valid (b : PriorityBook) : Prop where
  side_eq : ∀ side, ∀ o ∈ b side, o.side = side
  ranked : ∀ side, Ranked side (b side)
  positive : ∀ side, Positive (b side)
  orderId_pos : ∀ side, ∀ o ∈ b side, 0 < o.orderId
  price_pos : ∀ side, ∀ o ∈ b side, 0 < o.price
  nodup : (b.orders.map RestingOrder.orderId).Nodup
  uncrossed : ∀ side, ∀ o ∈ b side, ∀ p ∈ b side.opposite, ¬ Crosses side.opposite o.price p.price

theorem valid_empty : Valid fun _ => [] where
  side_eq := by simp
  ranked := by simp [Ranked]
  positive := by simp [Positive]
  orderId_pos := by simp
  price_pos := by simp
  nodup := by simp [orders]
  uncrossed := by simp

theorem mem_orders {b : PriorityBook} {o : RestingOrder} : o ∈ b.orders ↔ ∃ side, o ∈ b side := by
  simp only [orders, List.mem_append]
  constructor
  · rintro (h | h)
    · exact ⟨.buy, h⟩
    · exact ⟨.sell, h⟩
  · rintro ⟨side, h⟩
    cases side
    · exact Or.inl h
    · exact Or.inr h

/-- The two queues may be read off in either order. -/
theorem orders_perm (b : PriorityBook) (side : Side) :
    b.orders.Perm (b side ++ b side.opposite) := by
  cases side
  · exact List.Perm.refl _
  · exact List.perm_append_comm

namespace Valid

variable {b : PriorityBook} {side : Side} {limit q orderId : Int} {o p : RestingOrder}

theorem eq_of_orderId_eq (h : Valid b) (ho : o ∈ b.orders) (hp : p ∈ b.orders)
    (heq : o.orderId = p.orderId) : o = p :=
  List.inj_on_of_nodup_map h.nodup ho hp heq

theorem find?_eq_some_iff (h : Valid b) :
    b.find? orderId = some o ↔ o ∈ b.orders ∧ o.orderId = orderId := by
  constructor
  · intro hfind
    exact ⟨List.mem_of_find?_eq_some hfind, by simpa using List.find?_some hfind⟩
  · rintro ⟨ho, rfl⟩
    cases hfind : b.find? o.orderId with
    | none => simpa using (List.find?_eq_none.mp hfind) o ho
    | some p =>
      have hp := List.mem_of_find?_eq_some hfind
      have heq : p.orderId = o.orderId := by simpa using List.find?_some hfind
      rw [h.eq_of_orderId_eq hp ho heq]

theorem makers_append_bystanders (h : Valid b) (side : Side) (limit : Int) :
    b.makers side limit ++ b.bystanders side limit = b side.opposite :=
  (h.ranked side.opposite).crossed_append_uncrossed limit

theorem positive_makers (h : Valid b) (side : Side) (limit : Int) :
    Positive (b.makers side limit) :=
  fun o ho => h.positive side.opposite o ((crossed_sublist ..).subset ho)

end Valid

/-! ### Every input keeps a book valid -/

/-- What neither matching nor cancelling changes about an order. -/
def key (o : RestingOrder) : Int × Side × Int := (o.orderId, o.side, o.price)

theorem crosses_opposite (side : Side) (p q : Int) :
    Crosses side.opposite p q ↔ Crosses side q p := by
  cases side <;> rfl

/-- Taking orders out, or quantity off them, keeps a book valid. -/
theorem Valid.of_sublist {b b' : PriorityBook} (h : Valid b)
    (hsub : ∀ side, ((b' side).map key).Sublist ((b side).map key))
    (hpos : ∀ side, Positive (b' side)) : Valid b' := by
  have hmem : ∀ side, ∀ o ∈ b' side, ∃ p ∈ b side, key p = key o := fun side o ho =>
    List.mem_map.mp ((hsub side).subset (List.mem_map_of_mem ho))
  refine ⟨?_, ?_, hpos, ?_, ?_, ?_, ?_⟩
  · intro side o ho
    obtain ⟨p, hp, heq⟩ := hmem side o ho
    rw [← h.side_eq side p hp]
    exact (congrArg (fun k => k.2.1) heq).symm
  · intro side
    have hranked := h.ranked side
    have hkey : ∀ os : List RestingOrder, Ranked side os ↔
        (os.map key).Pairwise fun k l => ¬ RestingLevelsCompare side l.2.2 k.2.2 :=
      fun os => by simp only [Ranked, List.pairwise_map, key]
    rw [hkey] at hranked ⊢
    exact hranked.sublist (hsub side)
  · intro side o ho
    obtain ⟨p, hp, heq⟩ := hmem side o ho
    have hpos := h.orderId_pos side p hp
    rwa [show p.orderId = o.orderId from congrArg Prod.fst heq] at hpos
  · intro side o ho
    obtain ⟨p, hp, heq⟩ := hmem side o ho
    have hpos := h.price_pos side p hp
    rwa [show p.price = o.price from congrArg (fun k => k.2.2) heq] at hpos
  · have hids : ∀ b : PriorityBook, b.orders.map RestingOrder.orderId
        = ((b .buy).map key ++ (b .sell).map key).map Prod.fst := by
      intro b
      simp [orders, Function.comp_def, key]
    have hnodup := h.nodup
    rw [hids] at hnodup ⊢
    exact hnodup.sublist (((hsub .buy).append (hsub .sell)).map _)
  · intro side o ho p hp
    obtain ⟨o', ho', heqo⟩ := hmem side o ho
    obtain ⟨p', hp', heqp⟩ := hmem side.opposite p hp
    have huncrossed := h.uncrossed side o' ho' p' hp'
    rwa [show o'.price = o.price from congrArg (fun k => k.2.2) heqo,
      show p'.price = p.price from congrArg (fun k => k.2.2) heqp] at huncrossed

theorem sweep_opposite (b : PriorityBook) (side : Side) (limit q : Int) :
    b.sweep side limit q side.opposite = left q (b.makers side limit) ++ b.bystanders side limit :=
  Function.update_self ..

theorem sweep_same (b : PriorityBook) (side : Side) (limit q : Int) :
    b.sweep side limit q side = b side :=
  Function.update_of_ne (Side.opposite_ne side).symm ..

theorem sweep_map_key_sublist {b : PriorityBook} (h : Valid b) (side : Side) (limit q : Int)
    (s : Side) : ((b.sweep side limit q s).map key).Sublist ((b s).map key) := by
  by_cases hs : s = side.opposite
  · subst hs
    rw [sweep_opposite, ← h.makers_append_bystanders side limit, List.map_append, List.map_append]
    exact (map_left_suffix (fun _ _ => rfl) q _).sublist.append (List.Sublist.refl _)
  · rw [sweep, Function.update_of_ne hs]

/-- Matching brings no id into the book. -/
theorem sweep_orderIds_subset {b : PriorityBook} (h : Valid b) (side : Side) (limit q : Int) :
    (b.sweep side limit q).orders.map RestingOrder.orderId ⊆ b.orders.map RestingOrder.orderId := by
  intro orderId hmem
  obtain ⟨o, ho, rfl⟩ := List.mem_map.mp hmem
  obtain ⟨s, hs⟩ := mem_orders.mp ho
  obtain ⟨p, hp, hkey⟩ := List.mem_map.mp
    ((sweep_map_key_sublist h side limit q s).subset (List.mem_map_of_mem hs))
  exact List.mem_map.mpr ⟨p, mem_orders.mpr ⟨s, hp⟩, congrArg Prod.fst hkey⟩

theorem Valid.sweep {b : PriorityBook} (h : Valid b) (side : Side) (limit q : Int) :
    Valid (b.sweep side limit q) := by
  refine h.of_sublist (sweep_map_key_sublist h side limit q) ?_
  intro s
  by_cases hs : s = side.opposite
  · subst hs
    rw [sweep_opposite]
    exact positive_append.mpr ⟨(h.positive_makers side limit).left,
      fun o ho => h.positive _ o (List.mem_of_mem_filter ho)⟩
  · rw [PriorityBook.sweep, Function.update_of_ne hs]
    exact h.positive s

/-- Nothing happens to a book where the demand is met or nothing is crossed. -/
theorem sweep_self {b : PriorityBook} (h : Valid b) {side : Side} {limit q : Int}
    (hdone : q ≤ 0 ∨ b.makers side limit = []) : b.sweep side limit q = b := by
  have hleft : left q (b.makers side limit) = b.makers side limit := by
    rcases hdone with hzero | hnil
    · exact left_of_nonpos hzero _
    · rw [hnil]
      rfl
  rw [PriorityBook.sweep, hleft, h.makers_append_bystanders, Function.update_eq_self]

/-- What a limit crosses, once what it crosses has changed. -/
theorem makers_update {b : PriorityBook} {side : Side} {limit : Int} {os : List RestingOrder}
    (hos : ∀ o ∈ os, Crosses side.opposite limit o.price) :
    makers (Function.update b side.opposite (os ++ b.bystanders side limit)) side limit = os ∧
      bystanders (Function.update b side.opposite (os ++ b.bystanders side limit)) side limit
        = b.bystanders side limit := by
  have hcrossed : crossed side.opposite limit os = os :=
    List.filter_eq_self.mpr fun o ho => by simpa using hos o ho
  have huncrossed : uncrossed side.opposite limit os = [] :=
    List.filter_eq_nil_iff.mpr fun o ho => by simpa using hos o ho
  have hrest : ∀ o ∈ b.bystanders side limit, ¬ Crosses side.opposite limit o.price := fun o ho => by
    simpa using (List.mem_filter.mp ho).2
  constructor
  · rw [makers, Function.update_self, crossed_append, hcrossed, List.append_right_eq_self]
    exact List.filter_eq_nil_iff.mpr fun o ho => by simpa using hrest o ho
  · rw [bystanders, Function.update_self, uncrossed_append, huncrossed, List.nil_append]
    exact List.filter_eq_self.mpr fun o ho => by simpa using hrest o ho

theorem crosses_of_mem_makers {b : PriorityBook} {side : Side} {limit : Int} :
    ∀ o ∈ b.makers side limit, Crosses side.opposite limit o.price := by
  intro o ho
  simpa using (List.mem_filter.mp ho).2

/-- The sweep of a book whose first crossed order has been taken whole is the rest of the sweep. -/
theorem sweep_of_full {b : PriorityBook} {side : Side} {limit q : Int} {m : RestingOrder}
    {ms : List RestingOrder} (hmakers : b.makers side limit = m :: ms) (hq : 0 < q)
    (hle : m.quantity ≤ q) :
    sweep (Function.update b side.opposite (ms ++ b.bystanders side limit)) side limit
      (q - m.quantity) = b.sweep side limit q := by
  have hms : ∀ o ∈ ms, Crosses side.opposite limit o.price := fun o ho =>
    crosses_of_mem_makers o (hmakers ▸ List.mem_cons_of_mem _ ho)
  obtain ⟨hfirst, hsecond⟩ := makers_update hms
  rw [PriorityBook.sweep, PriorityBook.sweep, hfirst, hsecond, Function.update_idem, hmakers, left,
    if_neg (by omega), amount_restingOrder, if_neg (by omega)]

theorem left_makers_eq_nil {b : PriorityBook} (h : Valid b) {side : Side} {limit q : Int}
    (hq : total (b.makers side limit) ≤ q) : left q (b.makers side limit) = [] := by
  by_cases hnil : b.makers side limit = []
  · rw [hnil]
    rfl
  · exact (left_eq_nil_iff (h.positive_makers side limit) hnil).mpr hq

/-- A demand that is not met leaves no order that its limit crosses. -/
theorem not_crosses_of_sweep {b : PriorityBook} (h : Valid b) {side : Side} {limit q : Int}
    (hq : total (b.makers side limit) ≤ q) :
    ∀ o ∈ b.sweep side limit q side.opposite, ¬ Crosses side.opposite limit o.price := by
  intro o ho
  rw [sweep_opposite, left_makers_eq_nil h hq, List.nil_append] at ho
  simpa using (List.mem_filter.mp ho).2

/-- A demand that is not met takes the makers and leaves the others. -/
theorem mem_orders_sweep_iff {b : PriorityBook} (h : Valid b) {side : Side} {limit q : Int}
    (hq : total (b.makers side limit) ≤ q) {o : RestingOrder} :
    o ∈ (b.sweep side limit q).orders ↔ o ∈ b.orders ∧ o ∉ b.makers side limit := by
  rw [mem_orders, mem_orders]
  constructor
  · intro ⟨s, hs⟩
    have hkept : o ∈ b s := by
      rcases Side.eq_or_eq_opposite side s with rfl | rfl
      · rwa [sweep_same] at hs
      · rw [sweep_opposite, left_makers_eq_nil h hq, List.nil_append] at hs
        exact List.mem_of_mem_filter hs
    refine ⟨⟨s, hkept⟩, fun hmaker => ?_⟩
    have hs' := h.side_eq s o hkept
    obtain rfl : s = side.opposite := hs'.symm.trans (h.side_eq _ o (List.mem_of_mem_filter hmaker))
    exact not_crosses_of_sweep h hq o hs (crosses_of_mem_makers o hmaker)
  · intro ⟨⟨s, hs⟩, hnot⟩
    refine ⟨s, ?_⟩
    rcases Side.eq_or_eq_opposite side s with rfl | rfl
    · rwa [sweep_same]
    · rw [sweep_opposite]
      rw [← h.makers_append_bystanders side limit] at hs
      exact List.mem_append_right _ ((List.mem_append.mp hs).resolve_left hnot)

theorem orders_withdraw (b : PriorityBook) (orderId : Int) :
    (b.withdraw orderId).orders = b.orders.filter fun o => o.orderId ≠ orderId := by
  rw [orders, orders, List.filter_append]
  rfl

theorem Valid.withdraw {b : PriorityBook} (h : Valid b) (orderId : Int) :
    Valid (b.withdraw orderId) :=
  h.of_sublist (fun _ => List.filter_sublist.map key)
    fun side o ho => h.positive side o (List.mem_of_mem_filter ho)

/-- No other order of the book has the id of one that stands in it. -/
theorem orderId_ne_of_split {b : PriorityBook} (h : Valid b) {side : Side} {o : RestingOrder}
    {os ps : List RestingOrder} (hsplit : b side = os ++ o :: ps) :
    ∀ p ∈ (os ++ ps) ++ b side.opposite, p.orderId ≠ o.orderId := by
  intro p hp heq
  have hperm := b.orders_perm side
  rw [hsplit] at hperm
  have hnodup := (hperm.trans (List.perm_middle.append_right _)).map RestingOrder.orderId
    |>.nodup_iff.mp h.nodup
  exact (List.nodup_cons.mp hnodup).1 (List.mem_map.mpr ⟨p, hp, heq⟩)

/-- Withdrawing an order takes it out of its place and touches nothing else. -/
theorem withdraw_eq_update {b : PriorityBook} (h : Valid b) {side : Side} {o : RestingOrder}
    {os ps : List RestingOrder} (hsplit : b side = os ++ o :: ps) :
    b.withdraw o.orderId = Function.update b side (os ++ ps) := by
  have hne := orderId_ne_of_split h hsplit
  have hother : ∀ qs : List RestingOrder, (∀ p ∈ qs, p ∈ (os ++ ps) ++ b side.opposite) →
      qs.filter (fun p => p.orderId ≠ o.orderId) = qs := by
    intro qs hqs
    apply List.filter_eq_self.mpr
    intro p hp
    rw [decide_eq_true_iff]
    exact hne p (hqs p hp)
  funext s
  rcases Side.eq_or_eq_opposite side s with rfl | rfl
  · rw [withdraw, Function.update_self, hsplit, List.filter_append,
      List.filter_cons_of_neg (by simp), hother os, hother ps]
    · intro p hp
      exact List.mem_append_left _ (List.mem_append_right _ hp)
    · intro p hp
      exact List.mem_append_left _ (List.mem_append_left _ hp)
  · rw [withdraw, Function.update_of_ne (Side.opposite_ne side)]
    apply hother
    intro p hp
    exact List.mem_append_right _ hp

/-- So does changing an order in its place. -/
theorem map_eq_update {b : PriorityBook} (h : Valid b) {side : Side} {o : RestingOrder}
    {os ps : List RestingOrder} (hsplit : b side = os ++ o :: ps) {f : RestingOrder → RestingOrder}
    (hf : ∀ p, p.orderId ≠ o.orderId → f p = p) :
    (fun s => (b s).map f) = Function.update b side (os ++ f o :: ps) := by
  have hne := orderId_ne_of_split h hsplit
  have hother : ∀ qs : List RestingOrder, (∀ p ∈ qs, p ∈ (os ++ ps) ++ b side.opposite) →
      qs.map f = qs := by
    intro qs hqs
    have hid : ∀ p ∈ qs, f p = id p := fun p hp => hf p (hne p (hqs p hp))
    rw [List.map_congr_left hid, List.map_id]
  funext s
  rcases Side.eq_or_eq_opposite side s with rfl | rfl
  · rw [Function.update_self, hsplit, List.map_append, List.map_cons, hother os, hother ps]
    · intro p hp
      exact List.mem_append_left _ (List.mem_append_right _ hp)
    · intro p hp
      exact List.mem_append_left _ (List.mem_append_left _ hp)
  · rw [Function.update_of_ne (Side.opposite_ne side)]
    apply hother
    intro p hp
    exact List.mem_append_right _ hp

theorem enqueue_perm (o : RestingOrder) (os : List RestingOrder) : (enqueue o os).Perm (o :: os) := by
  induction os with
  | nil => exact List.Perm.refl _
  | cons p ps ih =>
    rw [enqueue]
    split
    · exact List.Perm.refl _
    · exact (ih.cons p).trans (List.Perm.swap o p ps)

theorem mem_enqueue {o p : RestingOrder} {os : List RestingOrder} :
    p ∈ enqueue o os ↔ p = o ∨ p ∈ os := by
  rw [(enqueue_perm o os).mem_iff, List.mem_cons]

theorem Ranked.enqueue {o : RestingOrder} {os : List RestingOrder} (h : Ranked o.side os) :
    Ranked o.side (enqueue o os) := by
  induction os with
  | nil => simp [Ranked, PriorityBook.enqueue]
  | cons p ps ih =>
    obtain ⟨hp, hps⟩ := List.pairwise_cons.mp h
    rw [PriorityBook.enqueue]
    by_cases hlt : RestingLevelsCompare o.side o.price p.price
    · rw [if_pos hlt]
      refine List.pairwise_cons.mpr ⟨fun r hr hrlt => ?_, h⟩
      rcases List.mem_cons.mp hr with rfl | hr
      · exact OrderedMap.not_lt_self _ _ (trans_of _ hlt hrlt)
      · exact hp r hr (trans_of _ hrlt hlt)
    · rw [if_neg hlt]
      refine List.pairwise_cons.mpr ⟨fun r hr => ?_, ih hps⟩
      rcases mem_enqueue.mp hr with rfl | hr
      · exact hlt
      · exact hp r hr

theorem enqueue_of_worse {o : RestingOrder} {ps : List RestingOrder}
    (hps : ∀ p ∈ ps, RestingLevelsCompare o.side o.price p.price) : enqueue o ps = o :: ps := by
  cases ps with
  | nil => rfl
  | cons p ps => exact if_pos (hps p (List.mem_cons_self ..))

/-- The place of a new order: behind the orders not worse priced, in front of the others. -/
theorem enqueue_append {o : RestingOrder} {os ps : List RestingOrder}
    (hos : ∀ p ∈ os, ¬ RestingLevelsCompare o.side o.price p.price)
    (hps : ∀ p ∈ ps, RestingLevelsCompare o.side o.price p.price) :
    enqueue o (os ++ ps) = os ++ o :: ps := by
  induction os with
  | nil => exact enqueue_of_worse hps
  | cons p os ih =>
    rw [List.cons_append, enqueue, if_neg (hos p (List.mem_cons_self ..)),
      ih fun r hr => hos r (List.mem_cons_of_mem _ hr)]
    rfl

theorem rest_same (b : PriorityBook) (o : RestingOrder) : b.rest o o.side = enqueue o (b o.side) :=
  Function.update_self ..

theorem rest_opposite (b : PriorityBook) (o : RestingOrder) :
    b.rest o o.side.opposite = b o.side.opposite :=
  Function.update_of_ne (Side.opposite_ne _) ..

theorem mem_rest {b : PriorityBook} {o p : RestingOrder} {side : Side} :
    p ∈ b.rest o side ↔ (p = o ∧ side = o.side) ∨ p ∈ b side := by
  by_cases hside : side = o.side
  · subst hside
    rw [rest_same, mem_enqueue]
    simp
  · rw [rest, Function.update_of_ne hside]
    simp [hside]

theorem rest_orders_perm (b : PriorityBook) (o : RestingOrder) :
    (b.rest o).orders.Perm (o :: b.orders) := by
  have hperm := (b.rest o).orders_perm o.side
  rw [rest_same, rest_opposite] at hperm
  exact hperm.trans (((enqueue_perm o _).append_right _).trans
    ((b.orders_perm o.side).symm.cons o))

theorem Valid.rest {b : PriorityBook} (h : Valid b) {o : RestingOrder} (hid : 0 < o.orderId)
    (hqty : 0 < o.quantity) (hprice : 0 < o.price)
    (hfresh : o.orderId ∉ b.orders.map RestingOrder.orderId)
    (hcross : ∀ p ∈ b o.side.opposite, ¬ Crosses o.side.opposite o.price p.price) :
    Valid (b.rest o) := by
  refine ⟨?_, ?_, ?_, ?_, ?_, ?_, ?_⟩
  · intro side p hp
    rcases mem_rest.mp hp with ⟨rfl, rfl⟩ | hp
    · rfl
    · exact h.side_eq side p hp
  · intro side
    by_cases hside : side = o.side
    · subst hside
      rw [rest_same]
      exact Ranked.enqueue (h.ranked _)
    · rw [PriorityBook.rest, Function.update_of_ne hside]
      exact h.ranked side
  · intro side p hp
    rcases mem_rest.mp hp with ⟨rfl, rfl⟩ | hp
    · exact hqty
    · exact h.positive side p hp
  · intro side p hp
    rcases mem_rest.mp hp with ⟨rfl, rfl⟩ | hp
    · exact hid
    · exact h.orderId_pos side p hp
  · intro side p hp
    rcases mem_rest.mp hp with ⟨rfl, rfl⟩ | hp
    · exact hprice
    · exact h.price_pos side p hp
  · rw [((rest_orders_perm b o).map _).nodup_iff, List.map_cons, List.nodup_cons]
    exact ⟨hfresh, h.nodup⟩
  · intro side p hp r hr
    rcases mem_rest.mp hp with ⟨rfl, rfl⟩ | hpb
    · rcases mem_rest.mp hr with ⟨-, hside⟩ | hrb
      · exact absurd hside (Side.opposite_ne _)
      · exact hcross r hrb
    · rcases mem_rest.mp hr with ⟨heq, hside⟩ | hrb
      · rw [← hside, Side.opposite_opposite] at hcross
        rw [heq, crosses_opposite]
        exact hcross p hpb
      · exact h.uncrossed side p hpb r hrb

theorem Valid.addOrder {b : PriorityBook} (h : Valid b) (fillable : Bool) {event : AddOrderEvent}
    (hid : 0 < event.orderId) (hprice : 0 < event.price) :
    Valid (b.addOrder fillable event).1 := by
  have hswept := h.sweep event.side event.price event.quantity
  apply addOrder_cases (P := fun b' _ => Valid b')
  · intro _ _
    exact h
  · intro _
    exact hswept
  · intro _ _ _
    exact hswept
  · intro hlt _ hfresh
    exact hswept.rest hid (by simp only; omega) hprice hfresh (not_crosses_of_sweep h hlt.le)
  · intro _ _ _
    exact hswept

theorem Valid.onInput {b : PriorityBook} (h : Valid b) (fillable : Bool) (event : InputEvent) :
    Valid (b.onInput fillable event).1 := by
  cases event with
  | addOrder event =>
    apply onAddOrder_cases (P := fun b' _ => Valid b')
    · intro _ _
      exact h
    · intro haccepted
      exact h.addOrder fillable haccepted.1 haccepted.2.2
  | cancelOrder event =>
    apply onCancelOrder_cases (P := fun b' _ => Valid b')
    · intro _
      exact h
    · intro o _ _
      exact h.withdraw o.orderId
  | shutdown => exact h

end PriorityBook

end MatchingEngine
