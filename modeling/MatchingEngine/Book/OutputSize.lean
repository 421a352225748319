import MatchingEngine.Book.Visits

/-!
# How much a run says

One order can trade with many, but a maker that a trade uses up is gone, and the one that is only used
in part is the last. So an add pays for at most one trade out of its own pocket, and for the others the
makers pay that came to rest before: over a whole run there are no more trades than adds, and the output
is linear in the input however the orders are matched.
-/

namespace MatchingEngine

open Divisible PriorityBook

variable {T : SignedInt}

def InputEvent.isAdd : InputEvent → Bool
  | .addOrder _ => true
  | _ => false

/-- Whether an input is one that the book answers. -/
def InputEvent.isOrder : InputEvent → Bool
  | .shutdown => false
  | _ => true

/-- Whether the order is taken out on its owner's request. -/
def OutputEvent.isUserCancel : OutputEvent → Bool
  | .orderCancelled event => event.cause = .userRequest
  | _ => false

def userCancels (emitted : List OutputEvent) : Nat := emitted.countP OutputEvent.isUserCancel

namespace PriorityBook

variable {b : PriorityBook}

/-- A demand takes out all the items it takes from but the last. -/
theorem length_takes_add_left_le {os : List RestingOrder} (h : Positive os) (q : Int) :
    (takes q os).length + (left q os).length ≤ os.length + 1 := by
  induction os generalizing q with
  | nil => simp [takes, left]
  | cons o os ih =>
    obtain ⟨ho, hos⟩ := positive_cons.mp h
    rw [takes, left]
    by_cases hq : q ≤ 0
    · rw [if_neg (by omega), if_pos hq]
      simp
    rw [if_pos (by omega), if_neg hq, List.length_cons, List.length_cons]
    by_cases hpart : q < amount o
    · rw [if_pos hpart, takes_of_nonpos (by omega), List.length_nil, List.length_cons]
      omega
    · rw [if_neg hpart]
      have hrest := ih hos (q - amount o)
      omega

theorem length_orders (b : PriorityBook) (side : Side) :
    b.orders.length = (b side).length + (b side.opposite).length := by
  rw [(b.orders_perm side).length_eq, List.length_append]

theorem length_orders_sweep (h : b.Valid) (side : Side) (limit q : Int) :
    (b.sweep side limit q).orders.length + (b.makers side limit).length
      = (left q (b.makers side limit)).length + b.orders.length := by
  have hopposite := congrArg List.length (h.makers_append_bystanders side limit)
  rw [List.length_append] at hopposite
  rw [length_orders _ side, length_orders b side, sweep_same, sweep_opposite, List.length_append]
  omega

section Fills

variable {taker q : Int} {os : List RestingOrder} {terminal : OutputEvent}

/-- Two events for each take. -/
theorem length_fillEvents (taker q : Int) (os : List RestingOrder) :
    (fillEvents taker q os).length = 2 * (takes q os).length := by
  rw [fillEvents]
  induction takes q os with
  | nil => rfl
  | cons take takes ih =>
    have hpair : (takeEvents taker take).length = 2 := rfl
    rw [List.flatMap_cons, List.length_append, ih, hpair, List.length_cons]
    omega

theorem trades_fills (htrade : terminal.trade? = none) :
    (trades (fillEvents taker q os ++ [terminal])).length = (takes q os).length := by
  have hnone : trades [terminal] = [] := by
    rw [trades, List.filterMap_cons_none htrade, List.filterMap_nil]
  rw [trades_append, hnone, List.append_nil, length_trades_fillEvents]

theorem userCancels_fills (hcancel : terminal.isUserCancel = false) :
    userCancels (fillEvents taker q os ++ [terminal]) = 0 := by
  rw [userCancels, List.countP_eq_zero]
  intro e he
  rcases List.mem_append.mp he with he | he
  · exact forall_mem_fillEvents (P := fun e => ¬ e.isUserCancel = true) (fun _ => Bool.false_ne_true)
      (fun _ => Bool.false_ne_true) (fun _ => Bool.false_ne_true) taker q os e he
  · rw [List.mem_singleton.mp he, hcancel]
    exact Bool.false_ne_true

end Fills

/-- The makers that an add uses up have paid for their trades by leaving the book. -/
theorem addOrder_trades (h : b.Valid) (fillable : Bool) (event : AddOrderEvent) :
    (trades (b.addOrder fillable event).2).length + (b.addOrder fillable event).1.orders.length
      ≤ b.orders.length + 1 := by
  have hpositive := h.positive_makers event.side event.price
  have hsweep := length_orders_sweep h event.side event.price event.quantity
  have hlen := length_takes_add_left_le hpositive event.quantity
  -- An order that wants all there is leaves no maker used in part.
  have hwhole : total (b.makers event.side event.price) < event.quantity →
      (takes event.quantity (b.makers event.side event.price)).length
        + (b.sweep event.side event.price event.quantity).orders.length = b.orders.length := by
    intro hlt
    rw [left_makers_eq_nil h hlt.le, List.length_nil] at hsweep
    rw [length_takes_of_total_le hpositive hlt.le]
    omega
  apply addOrder_cases (P := fun b' emitted => (trades emitted).length + b'.orders.length ≤ b.orders.length + 1)
  · intro _ _
    exact (Nat.zero_add _).trans_le (Nat.le_succ _)
  · intro _
    rw [trades_fills rfl]
    omega
  · intro hlt _ _
    rw [trades_fills rfl, hwhole hlt]
    exact Nat.le_succ _
  · intro hlt _ _
    rw [trades_fills rfl, (rest_orders_perm ..).length_eq, List.length_cons, ← Nat.add_assoc, hwhole hlt]
  · intro cause hlt _
    rw [trades_fills rfl, hwhole hlt]
    exact Nat.le_succ _

theorem userCancels_addOrder (b : PriorityBook) (fillable : Bool) (event : AddOrderEvent) :
    userCancels (b.addOrder fillable event).2 = 0 := by
  simp only [addOrder]
  split
  · rfl
  split
  · exact userCancels_fills rfl
  split
  · split
    · exact userCancels_fills rfl
    · exact userCancels_fills rfl
  · split
    · exact userCancels_fills rfl
    · exact userCancels_fills rfl

theorem length_addOrder (b : PriorityBook) (fillable : Bool) (event : AddOrderEvent) :
    (b.addOrder fillable event).2.length = 2 * (trades (b.addOrder fillable event).2).length + 1 := by
  have hfills : ∀ terminal : OutputEvent, terminal.trade? = none → ∀ (taker q : Int) (os : List RestingOrder),
      (fillEvents taker q os ++ [terminal]).length
        = 2 * (trades (fillEvents taker q os ++ [terminal])).length + 1 := by
    intro terminal hterminal taker q os
    rw [trades_fills hterminal, List.length_append, length_fillEvents, List.length_singleton]
  apply addOrder_cases (P := fun _ emitted => emitted.length = 2 * (trades emitted).length + 1)
  · exact fun _ _ => rfl
  · exact fun _ => hfills _ rfl _ _ _
  · exact fun _ _ _ => hfills _ rfl _ _ _
  · exact fun _ _ _ => hfills _ rfl _ _ _
  · exact fun _ _ _ => hfills _ rfl _ _ _

/-- **One input.** What it trades and cancels, and what is in the book after it, is in the book before
it, but for one that an add brings. -/
theorem onInput_settled (h : b.Valid) (fillable : Bool) (event : InputEvent) :
    (trades (b.onInput fillable event).2).length + userCancels (b.onInput fillable event).2
        + (b.onInput fillable event).1.orders.length
      ≤ b.orders.length + event.isAdd.toNat := by
  cases event with
  | shutdown => exact (Nat.zero_add _).le
  | addOrder event =>
    rw [onInput, onAddOrder]
    have hrejected : ∀ rejectCode, (trades [.orderRejected ⟨event.orderId, rejectCode⟩]).length
        + userCancels [.orderRejected ⟨event.orderId, rejectCode⟩] + b.orders.length ≤ b.orders.length + 1 :=
      fun _ => (Nat.zero_add _).trans_le (Nat.le_succ _)
    split
    · exact hrejected _
    split
    · exact hrejected _
    split
    · exact hrejected _
    · rw [userCancels_addOrder]
      exact addOrder_trades h fillable event
  | cancelOrder event =>
    apply onCancelOrder_cases (P := fun b' emitted =>
      (trades emitted).length + userCancels emitted + b'.orders.length ≤ b.orders.length + 0)
    · exact fun _ => (Nat.zero_add _).le
    · intro o ho _
      have hlt : (b.withdraw o.orderId).orders.length < b.orders.length := by
        rw [orders_withdraw]
        apply List.length_filter_lt_length_iff_exists.mpr
        exact ⟨o, ho, by simp⟩
      change 0 + 1 + (b.withdraw o.orderId).orders.length ≤ _
      omega

theorem length_onInput (b : PriorityBook) (fillable : Bool) (event : InputEvent) :
    (b.onInput fillable event).2.length
      = 2 * (trades (b.onInput fillable event).2).length + event.isOrder.toNat := by
  cases event with
  | shutdown => rfl
  | addOrder event =>
    apply onAddOrder_cases (P := fun _ emitted => emitted.length = 2 * (trades emitted).length + 1)
    · exact fun _ _ => rfl
    · exact fun _ => length_addOrder b fillable event
  | cancelOrder event =>
    apply onCancelOrder_cases (P := fun _ emitted => emitted.length = 2 * (trades emitted).length + 0 + 1)
    · exact fun _ => rfl
    · exact fun _ _ _ => rfl

end PriorityBook

/-- **The output is linear in the input.** Every add is behind one trade, one resting order or one
cancelled order at most, and the lines for an input are two for each trade and one for its end. -/
theorem run_outputSize (events : List InputEvent) (hfits : ∀ e ∈ events, e.Fits T) :
    ∃ c emitted, Clob.run T {} events = .ok (c, emitted) ∧
      (trades emitted).length + userCancels emitted
          + ((c.restingOrders .buy).length + (c.restingOrders .sell).length)
        ≤ events.countP InputEvent.isAdd ∧
      emitted.length = 2 * (trades emitted).length + events.countP InputEvent.isOrder := by
  obtain ⟨c, emitted, levels, hrun, hc, hsettled, hlength⟩ := run_induction (T := T)
    (P := fun events emitted _ levels =>
      (trades emitted).length + userCancels emitted + (bookOf levels).orders.length
          ≤ events.countP InputEvent.isAdd ∧
        emitted.length = 2 * (trades emitted).length + events.countP InputEvent.isOrder)
    (by simp [trades, userCancels, bookOf, ordersOf, orders])
    (by
      intro events emitted c levels event c' levels' hc hP _ hbecomes
      have hstep := onInput_settled hc.valid (c.probe T event) event
      have hlength := length_onInput (bookOf levels) (c.probe T event) event
      have hcount : ∀ p : InputEvent → Bool,
          (events ++ [event]).countP p = events.countP p + (p event).toNat := by
        intro p
        rw [List.countP_append, List.countP_singleton]
        cases p event <;> rfl
      rw [hbecomes.book_eq, hcount, hcount, trades_append, userCancels, List.countP_append, ← userCancels,
        ← userCancels, List.length_append, List.length_append]
      omega)
    events hfits
  refine ⟨c, emitted, hrun, ?_, hlength⟩
  rw [hc.restingOrders_eq, hc.restingOrders_eq, ← List.length_append]
  exact hsettled

theorem run_outputSize_sweep :
    ∃ c emitted, Clob.run .int64 {} [.addOrder ⟨1, .sell, 5, 100, .gtc⟩, .addOrder ⟨2, .sell, 4, 101, .gtc⟩,
        .addOrder ⟨3, .buy, 7, 101, .ioc⟩, .cancelOrder ⟨2⟩, .shutdown] = .ok (c, emitted) ∧
      (trades emitted).length + userCancels emitted
          + ((c.restingOrders .buy).length + (c.restingOrders .sell).length) ≤ 3 ∧
      emitted.length = 2 * (trades emitted).length + 4 :=
  run_outputSize _ (by decide +kernel)

end MatchingEngine
