import MatchingEngine.Book.Rejection

/-!
# Books without an order

Where an order stands does not depend on who else is there: taken out of the book it leaves the places of
the others alone, and who comes to rest finds its place past it. So an order that has just come to rest
leaves no trace when it is taken out again, and the cancel of another order does not see it.
-/

namespace MatchingEngine

open Divisible PriorityBook

variable {T : SignedInt} {c : Clob} {levels : Side → List (List Slot)}

/-- A valid GTC add of an id that does not rest, at a price that crosses nothing. -/
structure RestsInFull (c : Clob) (event : AddOrderEvent) : Prop where
  accepted : event.Accepted
  gtc : event.tif = .gtc
  fresh : ∀ o ∈ c.restingOrders .buy ++ c.restingOrders .sell, o.orderId ≠ event.orderId
  clear : c.makers event = []

theorem restsInFull_iff {event : AddOrderEvent} : RestsInFull c event ↔
    event.Accepted ∧ event.tif = .gtc ∧
      (∀ o ∈ c.restingOrders .buy ++ c.restingOrders .sell, o.orderId ≠ event.orderId) ∧
      c.makers event = [] := by
  constructor
  · intro h
    exact ⟨h.accepted, h.gtc, h.fresh, h.clear⟩
  · intro h
    exact ⟨h.1, h.2.1, h.2.2.1, h.2.2.2⟩

instance (c : Clob) (event : AddOrderEvent) : Decidable (RestsInFull c event) :=
  decidable_of_iff _ restsInFull_iff.symm

namespace PriorityBook

variable {b : PriorityBook} {orderId : Int}

/-- The place of an order does not depend on who else is there. -/
theorem filter_enqueue {o : RestingOrder} {os : List RestingOrder} (h : Ranked o.side os)
    {f : RestingOrder → Bool} (hf : f o) : (enqueue o os).filter f = enqueue o (os.filter f) := by
  induction os with
  | nil => exact List.filter_cons_of_pos hf
  | cons p ps ih =>
    obtain ⟨hp, hps⟩ := List.pairwise_cons.mp h
    rw [enqueue]
    by_cases hlt : RestingLevelsCompare o.side o.price p.price
    · -- whoever is left of those behind is worse priced too
      have hworse : ∀ r ∈ (p :: ps).filter f, RestingLevelsCompare o.side o.price r.price := by
        intro r hr
        rcases List.mem_cons.mp (List.mem_of_mem_filter hr) with rfl | hr
        · exact hlt
        · have hnot := hp r hr
          revert hlt hnot
          cases o.side <;> simp only [RestingLevelsCompare] <;> omega
      rw [if_pos hlt, List.filter_cons_of_pos hf, enqueue_of_worse hworse]
    · rw [if_neg hlt]
      by_cases hfp : f p
      · rw [List.filter_cons_of_pos hfp, List.filter_cons_of_pos hfp, ih hps, enqueue, if_neg hlt]
      · rw [List.filter_cons_of_neg hfp, List.filter_cons_of_neg hfp, ih hps]

theorem withdraw_rest (h : b.Valid) {o : RestingOrder} (hne : o.orderId ≠ orderId) :
    (b.rest o).withdraw orderId = (b.withdraw orderId).rest o := by
  funext side
  by_cases hside : side = o.side
  · subst hside
    rw [withdraw, rest_same, rest_same, filter_enqueue (h.ranked _) (by simpa using hne)]
    rfl
  · rw [withdraw, rest, rest, Function.update_of_ne hside, Function.update_of_ne hside]
    rfl

theorem withdraw_of_absent (hout : orderId ∉ b.orders.map RestingOrder.orderId) :
    b.withdraw orderId = b := by
  funext side
  apply List.filter_eq_self.mpr
  intro o ho
  rw [decide_eq_true_iff]
  intro heq
  exact hout (List.mem_map.mpr ⟨o, mem_orders.mpr ⟨side, ho⟩, heq⟩)

theorem filter_enqueue_of_neg {o : RestingOrder} {f : RestingOrder → Bool} (hf : ¬ f o)
    (os : List RestingOrder) : (enqueue o os).filter f = os.filter f := by
  induction os with
  | nil => exact List.filter_cons_of_neg hf
  | cons p ps ih =>
    rw [enqueue]
    split
    · exact List.filter_cons_of_neg hf
    · rw [List.filter_cons, List.filter_cons, ih]

/-- Taking out an order that was just entered. -/
theorem withdraw_rest_self {o : RestingOrder}
    (hout : o.orderId ∉ b.orders.map RestingOrder.orderId) : (b.rest o).withdraw o.orderId = b := by
  have hkept := withdraw_of_absent hout
  funext side
  rw [← congrFun hkept side]
  by_cases hside : side = o.side
  · subst hside
    rw [withdraw, rest_same, filter_enqueue_of_neg (by simp)]
    rfl
  · rw [withdraw, rest, Function.update_of_ne hside]
    rfl

theorem withdraw_withdraw (b : PriorityBook) (id id' : Int) :
    (b.withdraw id).withdraw id' = (b.withdraw id').withdraw id := by
  funext side
  exact List.filter_comm ..

theorem find?_withdraw (b : PriorityBook) {id : Int} (hne : id ≠ orderId) :
    (b.withdraw orderId).find? id = b.find? id := by
  rw [find?, find?, orders_withdraw, List.find?_filter]
  congr 1
  funext o
  by_cases heq : o.orderId = id
  · simp [heq, hne]
  · simp [heq]

/-- A cancel does not see another order. -/
theorem withdraw_onCancelOrder (b : PriorityBook) {event : CancelOrderEvent}
    (hne : event.orderId ≠ orderId) : (b.withdraw orderId).onCancelOrder event
      = ((b.onCancelOrder event).1.withdraw orderId, (b.onCancelOrder event).2) := by
  rw [onCancelOrder, onCancelOrder, find?_withdraw b hne]
  split
  · rfl
  · split
    · rfl
    · rw [withdraw_withdraw]

/-- An add that rests in full. -/
theorem onInput_of_clear (h : b.Valid) {event : AddOrderEvent} (haccepted : event.Accepted)
    (hgtc : event.tif = .gtc) (hfresh : event.orderId ∉ b.orders.map RestingOrder.orderId)
    (hclear : b.makers event.side event.price = []) (fillable : Bool) :
    b.onInput fillable (.addOrder event)
      = (b.rest ⟨event.orderId, event.side, event.price, event.quantity⟩,
        [.orderResting ⟨event.orderId, 0, event.quantity⟩]) := by
  obtain ⟨hid, hqty, hprice⟩ := haccepted
  have hkill : ¬ (event.tif = .fok ∧ fillable = false) := by simp [hgtc]
  simp only [PriorityBook.onInput, onAddOrder, addOrder, if_neg (not_le.mpr hid),
    if_neg (not_le.mpr hqty), if_neg (not_le.mpr hprice), if_neg hkill, sweep_self h (Or.inr hclear),
    hclear, total_nil, min_eq_right hqty.le, Int.sub_zero, if_neg hqty.ne', if_pos hgtc, if_neg hfresh]
  rfl

end PriorityBook

namespace Represents

theorem fresh_iff (h : Represents T c levels) (orderId : Int) :
    (∀ o ∈ c.restingOrders .buy ++ c.restingOrders .sell, o.orderId ≠ orderId) ↔
      orderId ∉ (bookOf levels).orders.map RestingOrder.orderId := by
  rw [h.orders_eq, List.mem_map, not_exists]
  simp only [not_and]

end Represents

end MatchingEngine
