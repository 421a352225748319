import MatchingEngine.Book.Probe

/-!
# A reference book

The resting orders in one flat list, in the order in which they came to rest, and matching by looking
through the whole list for each trade. There is nothing sorted and nothing cached in it.

`FlatBook.priorities` sorts such a list into the two queues of `PriorityBook`, by entering its orders
one after the other. Every operation on the list is the operation on the queues, so the code emits
what the reference emits.
-/

namespace MatchingEngine

open Divisible PriorityBook

/-- The resting orders, in the order in which they came to rest. -/
abbrev FlatBook := List RestingOrder

namespace FlatBook

/-- A buyer takes any price up to its limit, a seller any price from its limit on. -/
def Accepts : Side → Int → Int → Prop
  | .buy, limit, price => price ≤ limit
  | .sell, limit, price => limit ≤ price

/-- Buyers like low prices, sellers high ones. -/
def Better : Side → Int → Int → Prop
  | .buy, p, q => p < q
  | .sell, p, q => q < p

instance (side : Side) (limit price : Int) : Decidable (Accepts side limit price) := by
  cases side <;> simp only [Accepts] <;> infer_instance

instance (side : Side) (p q : Int) : Decidable (Better side p q) := by
  cases side <;> simp only [Better] <;> infer_instance

def candidates (event : AddOrderEvent) (flat : FlatBook) : List RestingOrder :=
  flat.filter fun o => o.side = event.side.opposite ∧ Accepts event.side event.price o.price

/-- An order that came to rest later is preferred only for a better price. -/
def prefer (side : Side) : Option RestingOrder → RestingOrder → Option RestingOrder
  | none, o => some o
  | some m, o => if Better side o.price m.price then some o else some m

/-- The earliest-rested order at the best price that the event accepts. -/
def bestMaker (event : AddOrderEvent) (flat : FlatBook) : Option RestingOrder :=
  (candidates event flat).foldl (prefer event.side) none

def remove (orderId : Int) (flat : FlatBook) : FlatBook := flat.filter fun o => o.orderId ≠ orderId

/-- An order that trades in part keeps its place. -/
def reduce (orderId quantity : Int) (flat : FlatBook) : FlatBook :=
  flat.map fun o => if o.orderId = orderId then { o with quantity } else o

/-- Trade until the event is filled or nothing is left that it accepts: the list, what remains to be
filled, and what is emitted. Every trade but the last takes an order off the list, so the length of
the list is fuel enough. -/
def fill (event : AddOrderEvent) : Nat → Int → FlatBook → FlatBook × Int × List OutputEvent
  | 0, remaining, flat => (flat, remaining, [])
  | fuel + 1, remaining, flat =>
    if remaining ≤ 0 then (flat, remaining, [])
    else
      match bestMaker event flat with
      | none => (flat, remaining, [])
      | some maker =>
        let traded := min remaining maker.quantity
        let trade := OutputEvent.trade ⟨event.orderId, maker.orderId, traded⟩
        if traded = maker.quantity then
          let (flat, rest, later) := fill event fuel (remaining - traded) (remove maker.orderId flat)
          (flat, rest, trade :: .orderFilled ⟨maker.orderId, traded⟩ :: later)
        else
          let kept := maker.quantity - traded
          let (flat, rest, later) := fill event fuel (remaining - traded) (reduce maker.orderId kept flat)
          (flat, rest, trade :: .orderResting ⟨maker.orderId, traded, kept⟩ :: later)

def addOrder (flat : FlatBook) (event : AddOrderEvent) : FlatBook × List OutputEvent :=
  if event.tif = .fok ∧ total (candidates event flat) < event.quantity then
    (flat, [.orderCancelled ⟨event.orderId, 0, event.quantity, .fillOrKill⟩])
  else
    let (flat, remaining, fills) := fill event flat.length event.quantity flat
    let filled := event.quantity - remaining
    if remaining = 0 then (flat, fills ++ [.orderFilled ⟨event.orderId, filled⟩])
    else if event.tif = .gtc then
      (flat ++ [⟨event.orderId, event.side, event.price, remaining⟩],
        fills ++ [.orderResting ⟨event.orderId, filled, remaining⟩])
    else (flat, fills ++ [.orderCancelled ⟨event.orderId, filled, remaining, .immediateOrCancel⟩])

def onInput (flat : FlatBook) : InputEvent → FlatBook × List OutputEvent
  | .addOrder event =>
    if event.orderId ≤ 0 then (flat, [.orderRejected ⟨event.orderId, .invalidOrderId⟩])
    else if event.quantity ≤ 0 then (flat, [.orderRejected ⟨event.orderId, .invalidQuantity⟩])
    else if event.price ≤ 0 then (flat, [.orderRejected ⟨event.orderId, .invalidPrice⟩])
    else addOrder flat event
  | .cancelOrder event =>
    if event.orderId ≤ 0 then (flat, [.orderRejected ⟨event.orderId, .invalidOrderId⟩])
    else
      match flat.find? fun o => o.orderId = event.orderId with
      | none => (flat, [.orderRejected ⟨event.orderId, .unknownOrderId⟩])
      | some o =>
        (remove event.orderId flat, [.orderCancelled ⟨event.orderId, 0, o.quantity, .userRequest⟩])
  | .shutdown => (flat, [])

/-- The list and the emitted events after a sequence of inputs. -/
def run : FlatBook → List InputEvent → FlatBook × List OutputEvent
  | flat, [] => (flat, [])
  | flat, event :: events =>
    let (flat, emitted) := onInput flat event
    let (flat, later) := run flat events
    (flat, emitted ++ later)

/-- The resting quantities of each side sum to less than a bound. -/
def SumsBelow (bound : Int) (flat : FlatBook) : Prop :=
  ∀ side ∈ [Side.buy, .sell], total (flat.filter fun o => o.side = side) < bound

/-- An add does not have the id of a resting order. -/
def Fresh (flat : FlatBook) : InputEvent → Prop
  | .addOrder event => event.orderId ∉ flat.map RestingOrder.orderId
  | _ => True

/-- No add of the run reuses the id of an order that is resting when the add arrives, and the resting
quantities of each side always sum to less than a bound. -/
def Admissible (bound : Int) : FlatBook → List InputEvent → Prop
  | flat, [] => SumsBelow bound flat
  | flat, event :: events =>
    SumsBelow bound flat ∧ Fresh flat event ∧ Admissible bound (onInput flat event).1 events

instance (bound : Int) (flat : FlatBook) : Decidable (SumsBelow bound flat) :=
  inferInstanceAs (Decidable (∀ side ∈ [Side.buy, .sell], _))

instance (flat : FlatBook) : (event : InputEvent) → Decidable (Fresh flat event)
  | .addOrder event => inferInstanceAs (Decidable (event.orderId ∉ flat.map RestingOrder.orderId))
  | .cancelOrder _ => inferInstanceAs (Decidable True)
  | .shutdown => inferInstanceAs (Decidable True)

instance decidableAdmissible (bound : Int) :
    (flat : FlatBook) → (events : List InputEvent) → Decidable (Admissible bound flat events)
  | flat, [] => inferInstanceAs (Decidable (SumsBelow bound flat))
  | flat, event :: events =>
    have := decidableAdmissible bound (onInput flat event).1 events
    inferInstanceAs (Decidable (_ ∧ _ ∧ _))

/-! ### Sorting the list into queues -/

def priorities (flat : FlatBook) : PriorityBook := fun side =>
  (flat.filter fun o => o.side = side).foldl (fun os o => enqueue o os) []

theorem priorities_concat (flat : FlatBook) (o : RestingOrder) :
    priorities (flat ++ [o]) = (priorities flat).rest o := by
  funext side
  by_cases hside : side = o.side
  · subst hside
    rw [rest_same, priorities, List.filter_append, List.filter_cons_of_pos (by simp),
      List.foldl_append]
    rfl
  · have hne : o.side ≠ side := fun heq => hside heq.symm
    rw [PriorityBook.rest, Function.update_of_ne hside, priorities, List.filter_append,
      List.filter_cons_of_neg (by simpa using hne), List.filter_nil, List.append_nil]
    rfl

theorem priorities_ranked (flat : FlatBook) (side : Side) : Ranked side (priorities flat side) := by
  induction flat using List.reverseRecOn with
  | nil => exact List.Pairwise.nil
  | append_singleton flat o ih =>
    rw [priorities_concat]
    by_cases hside : side = o.side
    · subst hside
      rw [rest_same]
      exact Ranked.enqueue ih
    · rw [PriorityBook.rest, Function.update_of_ne hside]
      exact ih

/-- Leaving orders out before or after the sorting is the same. -/
theorem filter_enqueue {f : RestingOrder → Bool} {o : RestingOrder} {os : List RestingOrder}
    (h : Ranked o.side os) :
    (enqueue o os).filter f = if f o then enqueue o (os.filter f) else os.filter f := by
  induction os with
  | nil => cases hf : f o <;> simp [enqueue, hf]
  | cons p ps ih =>
    obtain ⟨hp, hps⟩ := List.pairwise_cons.mp h
    by_cases hlt : RestingLevelsCompare o.side o.price p.price
    · -- everything from here on is worse priced, whatever is left out of it
      have hworse : ∀ r ∈ (p :: ps).filter f, RestingLevelsCompare o.side o.price r.price := by
        intro r hr
        rcases List.mem_cons.mp (List.mem_of_mem_filter hr) with rfl | hr
        · exact hlt
        · have hle := hp r hr
          cases hside : o.side <;> simp only [hside, RestingLevelsCompare] at hle hlt ⊢ <;> omega
      rw [enqueue, if_pos hlt, List.filter_cons]
      split
      · exact (enqueue_of_worse hworse).symm
      · rfl
    · rw [enqueue, if_neg hlt, List.filter_cons, List.filter_cons, ih hps]
      cases hf : f o <;> cases hfp : f p <;> simp [enqueue, hlt]

theorem priorities_filter (f : RestingOrder → Bool) (flat : FlatBook) (side : Side) :
    priorities (flat.filter f) side = (priorities flat side).filter f := by
  induction flat using List.reverseRecOn with
  | nil => rfl
  | append_singleton flat o ih =>
    rw [List.filter_append, priorities_concat]
    by_cases hside : side = o.side
    · subst hside
      rw [rest_same, filter_enqueue (priorities_ranked ..)]
      cases hf : f o
      · simpa [hf] using ih
      · rw [List.filter_cons_of_pos hf, List.filter_nil, priorities_concat, rest_same, ih, if_pos rfl]
    · rw [PriorityBook.rest, Function.update_of_ne hside, ← ih]
      cases hf : f o
      · simp [hf]
      · rw [List.filter_cons_of_pos hf, List.filter_nil, priorities_concat, PriorityBook.rest,
          Function.update_of_ne hside]

theorem map_enqueue {f : RestingOrder → RestingOrder} (hside : ∀ o, (f o).side = o.side)
    (hprice : ∀ o, (f o).price = o.price) (o : RestingOrder) (os : List RestingOrder) :
    enqueue (f o) (os.map f) = (enqueue o os).map f := by
  induction os with
  | nil => rfl
  | cons p ps ih =>
    rw [List.map_cons, enqueue, enqueue, hside, hprice, hprice, ih]
    split <;> rfl

/-- An update that keeps side and price keeps every order's place. -/
theorem priorities_map {f : RestingOrder → RestingOrder} (hside : ∀ o, (f o).side = o.side)
    (hprice : ∀ o, (f o).price = o.price) (flat : FlatBook) (side : Side) :
    priorities (flat.map f) side = (priorities flat side).map f := by
  induction flat using List.reverseRecOn with
  | nil => rfl
  | append_singleton flat o ih =>
    rw [List.map_append, List.map_singleton, priorities_concat, priorities_concat]
    by_cases hs : side = o.side
    · subst hs
      have hsame := rest_same (priorities (flat.map f)) (f o)
      rw [hside, ih, map_enqueue hside hprice] at hsame
      rw [hsame, rest_same]
    · rw [PriorityBook.rest, PriorityBook.rest, hside, Function.update_of_ne hs,
        Function.update_of_ne hs, ih]

theorem priorities_perm (flat : FlatBook) (side : Side) :
    (priorities flat side).Perm (flat.filter fun o => o.side = side) := by
  induction flat using List.reverseRecOn with
  | nil => exact List.Perm.refl _
  | append_singleton flat o ih =>
    rw [priorities_concat, List.filter_append]
    by_cases hside : side = o.side
    · subst hside
      rw [rest_same, List.filter_cons_of_pos (by simp), List.filter_nil]
      exact (enqueue_perm o _).trans ((ih.cons o).trans (List.perm_append_singleton o _).symm)
    · have hne : o.side ≠ side := fun heq => hside heq.symm
      rw [PriorityBook.rest, Function.update_of_ne hside, List.filter_cons_of_neg (by simpa using hne),
        List.filter_nil, List.append_nil]
      exact ih

theorem orders_perm (flat : FlatBook) : (priorities flat).orders.Perm flat := by
  have hsell : (flat.filter fun o => o.side = .sell) = flat.filter fun o => ¬ o.side = .buy := by
    apply List.filter_congr
    intro o _
    cases o.side <;> decide
  have hsplit := List.filter_append_perm (fun o : RestingOrder => o.side = .buy) flat
  refine ((priorities_perm flat .buy).append (priorities_perm flat .sell)).trans ?_
  rw [hsell]
  simpa using hsplit

/-! ### Looking for the best order is taking the head of the queue -/

theorem accepts_iff (side : Side) (limit price : Int) :
    Accepts side limit price ↔ Crosses side.opposite limit price := by
  cases side <;> simp [Accepts, Crosses, RestingLevelsCompare, Side.opposite]

theorem better_iff (side : Side) (p q : Int) :
    Better side p q ↔ RestingLevelsCompare side.opposite p q := by
  cases side <;> rfl

theorem prefer_head (side : Side) {o : RestingOrder} (os : List RestingOrder)
    (ho : o.side = side.opposite) : prefer side os.head? o = (enqueue o os).head? := by
  cases os with
  | nil => rfl
  | cons p ps =>
    rw [List.head?_cons, prefer, enqueue]
    simp only [better_iff, ho]
    split <;> rfl

theorem foldl_prefer (side : Side) (flat : FlatBook) (h : ∀ o ∈ flat, o.side = side.opposite) :
    flat.foldl (prefer side) none = (priorities flat side.opposite).head? := by
  induction flat using List.reverseRecOn with
  | nil => rfl
  | append_singleton flat o ih =>
    have ho : o.side = side.opposite := h o (List.mem_append_right _ (List.mem_singleton_self _))
    rw [List.foldl_append, ih fun p hp => h p (List.mem_append_left _ hp), List.foldl_cons,
      List.foldl_nil, prefer_head side _ ho, priorities_concat, ← ho, rest_same]

theorem candidates_side {event : AddOrderEvent} {flat : FlatBook} :
    ∀ o ∈ candidates event flat, o.side = event.side.opposite := by
  intro o ho
  have hmem := (List.mem_filter.mp ho).2
  simp only [Bool.decide_and, Bool.and_eq_true, decide_eq_true_eq] at hmem
  exact hmem.1

/-- The orders that the event accepts, sorted, are the makers. -/
theorem priorities_candidates (event : AddOrderEvent) (flat : FlatBook) :
    priorities (candidates event flat) event.side.opposite
      = (priorities flat).makers event.side event.price := by
  rw [candidates, priorities_filter, makers, crossed]
  apply List.filter_congr
  intro o ho
  have hside : o.side = event.side.opposite := by
    have hmem := (priorities_perm flat event.side.opposite).subset ho
    simpa using (List.mem_filter.mp hmem).2
  simp [hside, accepts_iff]

theorem bestMaker_eq (event : AddOrderEvent) (flat : FlatBook) :
    bestMaker event flat = ((priorities flat).makers event.side event.price).head? := by
  rw [bestMaker, foldl_prefer _ _ candidates_side, priorities_candidates]

theorem total_candidates (event : AddOrderEvent) (flat : FlatBook) :
    total (candidates event flat) = total ((priorities flat).makers event.side event.price) := by
  have hall : (candidates event flat).filter (fun o => o.side = event.side.opposite)
      = candidates event flat := by
    apply List.filter_eq_self.mpr
    intro o ho
    simpa using candidates_side o ho
  have hperm := priorities_perm (candidates event flat) event.side.opposite
  rw [hall, priorities_candidates] at hperm
  exact (hperm.map amount).sum_eq.symm

/-! ### One trade, and all of them -/

theorem priorities_remove (orderId : Int) (flat : FlatBook) :
    priorities (remove orderId flat) = (priorities flat).withdraw orderId := by
  funext side
  rw [remove, priorities_filter]
  rfl

theorem priorities_reduce (orderId quantity : Int) (flat : FlatBook) :
    priorities (reduce orderId quantity flat) = fun side => (priorities flat side).map fun o =>
      if o.orderId = orderId then { o with quantity } else o := by
  funext side
  apply priorities_map
  · intro o
    split <;> rfl
  · intro o
    split <;> rfl

theorem fill_of_nonpos {event : AddOrderEvent} {remaining : Int} (h : remaining ≤ 0) (fuel : Nat)
    (flat : FlatBook) : fill event fuel remaining flat = (flat, remaining, []) := by
  cases fuel with
  | zero => rfl
  | succ fuel => rw [fill, if_pos h]

section Trade

variable {event : AddOrderEvent} {flat : FlatBook} {m : RestingOrder} {ms : List RestingOrder}

variable (hvalid : (priorities flat).Valid)
  (hmakers : (priorities flat).makers event.side event.price = m :: ms)

include hvalid hmakers

theorem priorities_remove_maker : priorities (remove m.orderId flat)
    = Function.update (priorities flat) event.side.opposite
        (ms ++ (priorities flat).bystanders event.side event.price) := by
  have hsplit := hvalid.makers_append_bystanders event.side event.price
  rw [hmakers] at hsplit
  have hupdate := withdraw_eq_update hvalid
    (show _ = [] ++ m :: (ms ++ (priorities flat).bystanders event.side event.price) from hsplit.symm)
  rw [priorities_remove, hupdate, List.nil_append]

theorem priorities_reduce_maker (quantity : Int) : priorities (reduce m.orderId quantity flat)
    = Function.update (priorities flat) event.side.opposite
        ({ m with quantity } :: (ms ++ (priorities flat).bystanders event.side event.price)) := by
  have hsplit := hvalid.makers_append_bystanders event.side event.price
  rw [hmakers] at hsplit
  have hupdate := map_eq_update hvalid
    (show _ = [] ++ m :: (ms ++ (priorities flat).bystanders event.side event.price) from hsplit.symm)
    (f := fun o => if o.orderId = m.orderId then { o with quantity } else o) fun p hp => if_neg hp
  rw [priorities_reduce, hupdate, if_pos rfl]
  rfl

/-- With the best maker off the list, the makers behind it are left. -/
theorem makers_remove_maker :
    (priorities (remove m.orderId flat)).makers event.side event.price = ms := by
  rw [priorities_remove_maker hvalid hmakers]
  exact (makers_update fun o ho =>
    crosses_of_mem_makers o (hmakers ▸ List.mem_cons_of_mem _ ho)).1

variable {fuel : Nat} {q : Int}

omit hvalid

/-- A demand that takes the best maker whole goes on without it. -/
theorem fill_whole (hq : 0 < q) (hle : m.quantity ≤ q) : fill event (fuel + 1) q flat
    = ((fill event fuel (q - m.quantity) (remove m.orderId flat)).1,
      (fill event fuel (q - m.quantity) (remove m.orderId flat)).2.1,
      takeEvents event.orderId (m, m.quantity)
        ++ (fill event fuel (q - m.quantity) (remove m.orderId flat)).2.2) := by
  rw [fill, if_neg (by omega), bestMaker_eq, hmakers]
  simp only [List.head?_cons]
  rw [min_eq_right hle, if_pos rfl, takeEvents, if_pos rfl]
  rfl

/-- A demand that the best maker can meet ends in it. -/
theorem fill_part (hq : 0 < q) (hlt : q < m.quantity) : fill event (fuel + 1) q flat
    = (reduce m.orderId (m.quantity - q) flat, 0, takeEvents event.orderId (m, q)) := by
  rw [fill, if_neg (by omega), bestMaker_eq, hmakers]
  simp only [List.head?_cons]
  rw [min_eq_left hlt.le, if_neg hlt.ne, Int.sub_self, fill_of_nonpos (le_refl 0), takeEvents,
    if_neg hlt.ne]

end Trade

/-- Filling from the list is sweeping the queue. -/
theorem fill_eq (event : AddOrderEvent) :
    ∀ (fuel : Nat) (q : Int) (flat : FlatBook), (priorities flat).Valid → 0 ≤ q →
      ((priorities flat).makers event.side event.price).length ≤ fuel →
      ∃ flat', fill event fuel q flat =
          (flat', q - min q (total ((priorities flat).makers event.side event.price)),
            fillEvents event.orderId q ((priorities flat).makers event.side event.price)) ∧
        priorities flat' = (priorities flat).sweep event.side event.price q := by
  intro fuel
  induction fuel with
  | zero =>
    intro q flat hvalid hq hfuel
    have hnil := List.length_eq_zero_iff.mp (Nat.le_zero.mp hfuel)
    refine ⟨flat, ?_, (sweep_self hvalid (Or.inr hnil)).symm⟩
    rw [hnil, total_nil, min_eq_right hq, Int.sub_zero]
    rfl
  | succ fuel ih =>
    intro q flat hvalid hq hfuel
    have hpositive := hvalid.positive_makers event.side event.price
    by_cases hzero : q ≤ 0
    · have hnonneg := hpositive.total_nonneg
      refine ⟨flat, ?_, (sweep_self hvalid (Or.inl hzero)).symm⟩
      rw [fill_of_nonpos hzero, fillEvents, takes_of_nonpos hzero, min_eq_left (by omega), Int.sub_self]
      simp only [List.flatMap_nil, Prod.mk.injEq, true_and, and_true]
      omega
    have hq : 0 < q := not_le.mp hzero
    cases hmakers : (priorities flat).makers event.side event.price with
    | nil =>
      refine ⟨flat, ?_, (sweep_self hvalid (Or.inr hmakers)).symm⟩
      rw [fill, if_neg hzero, bestMaker_eq, hmakers, total_nil, min_eq_right hq.le, Int.sub_zero]
      rfl
    | cons m ms =>
      rw [hmakers] at hfuel hpositive
      obtain ⟨hm, hms⟩ := positive_cons.mp hpositive
      rw [amount_restingOrder] at hm
      have hmsNonneg := hms.total_nonneg
      simp only [total_cons, amount_restingOrder]
      by_cases hle : m.quantity ≤ q
      · -- the maker is filled, and the rest of the demand goes on
        have hvalid' : (priorities (remove m.orderId flat)).Valid := by
          rw [priorities_remove]
          exact hvalid.withdraw m.orderId
        have hmakers' := makers_remove_maker hvalid hmakers
        obtain ⟨flat', hfill, hbook⟩ := ih (q - m.quantity) (remove m.orderId flat) hvalid' (by omega)
          (by rw [hmakers']; simpa using hfuel)
        rw [hmakers'] at hfill
        rw [fill_whole hmakers hq hle, hfill]
        refine ⟨flat', ?_, ?_⟩
        · have hevents : fillEvents event.orderId q (m :: ms)
              = takeEvents event.orderId (m, m.quantity)
                ++ fillEvents event.orderId (q - m.quantity) ms := by
            rw [fillEvents, fillEvents, takes, if_pos hq, List.flatMap_cons, amount_restingOrder,
              min_eq_right hle]
          rw [hevents]
          simp only [Prod.mk.injEq, true_and, and_true]
          omega
        · rw [hbook, priorities_remove_maker hvalid hmakers]
          exact sweep_of_full hmakers hq hle
      · -- the demand ends in the maker
        have hlt : q < m.quantity := not_le.mp hle
        rw [fill_part hmakers hq hlt]
        refine ⟨reduce m.orderId (m.quantity - q) flat, ?_, ?_⟩
        · have hevents : fillEvents event.orderId q (m :: ms) = takeEvents event.orderId (m, q) := by
            rw [fillEvents, takes, if_pos hq, amount_restingOrder, min_eq_left hlt.le,
              takes_of_nonpos (by omega), List.flatMap_cons, List.flatMap_nil, List.append_nil]
          rw [hevents]
          simp only [Prod.mk.injEq, true_and, and_true]
          omega
        · rw [priorities_reduce_maker hvalid hmakers, PriorityBook.sweep, hmakers, left,
            if_neg hzero, amount_restingOrder, if_pos hlt]
          rfl

/-! ### Runs -/

theorem addOrder_eq {event : AddOrderEvent} {flat : FlatBook} (hvalid : (priorities flat).Valid)
    (hqty : 0 < event.quantity) (hfresh : event.orderId ∉ flat.map RestingOrder.orderId) :
    (priorities (addOrder flat event).1, (addOrder flat event).2) = (priorities flat).addOrder
      (decide (event.quantity ≤ total ((priorities flat).makers event.side event.price))) event := by
  have hlength : ((priorities flat).makers event.side event.price).length ≤ flat.length := by
    have hle := (crossed_sublist event.side.opposite event.price
      (priorities flat event.side.opposite)).length_le
    rw [(priorities_perm flat event.side.opposite).length_eq] at hle
    exact hle.trans (List.length_filter_le ..)
  obtain ⟨flat', hfill, hbook⟩ := fill_eq event flat.length event.quantity flat hvalid hqty.le hlength
  have hfreshSwept : event.orderId ∉ ((priorities flat).sweep event.side event.price
      event.quantity).orders.map RestingOrder.orderId := by
    intro hmem
    apply hfresh
    have hsub := sweep_orderIds_subset hvalid _ _ _ hmem
    exact ((orders_perm flat).map RestingOrder.orderId).subset hsub
  simp only [addOrder, PriorityBook.addOrder, total_candidates, hfill, decide_eq_false_iff_not,
    not_le, Int.sub_sub_self]
  by_cases hkill : event.tif = .fok ∧
      total ((priorities flat).makers event.side event.price) < event.quantity
  · rw [if_pos hkill, if_pos hkill]
  rw [if_neg hkill, if_neg hkill]
  by_cases hzero : event.quantity -
      min event.quantity (total ((priorities flat).makers event.side event.price)) = 0
  · rw [if_pos hzero, if_pos hzero, hbook]
  rw [if_neg hzero, if_neg hzero]
  by_cases hgtc : event.tif = .gtc
  · rw [if_pos hgtc, if_pos hgtc, if_neg hfreshSwept]
    simp only [priorities_concat, hbook]
  · -- a fill-or-kill order that is not killed leaves no residue
    have hioc : event.tif = .ioc := by
      cases htif : event.tif with
      | gtc => exact absurd htif hgtc
      | ioc => rfl
      | fok =>
        rw [not_and] at hkill
        have hle := hkill htif
        omega
    rw [if_neg hgtc, if_neg hgtc, if_pos hioc, hbook]

/-- The decision on a fill-or-kill order taken from exact sums. -/
def exactProbe (b : PriorityBook) : InputEvent → Bool
  | .addOrder event => event.quantity ≤ total (b.makers event.side event.price)
  | _ => true

theorem onInput_eq {event : InputEvent} {flat : FlatBook} (hvalid : (priorities flat).Valid)
    (hfresh : Fresh flat event) :
    (priorities (onInput flat event).1, (onInput flat event).2)
      = (priorities flat).onInput (exactProbe (priorities flat) event) event := by
  cases event with
  | shutdown => rfl
  | addOrder event =>
    simp only [onInput, PriorityBook.onInput, PriorityBook.onAddOrder]
    by_cases hid : event.orderId ≤ 0
    · rw [if_pos hid, if_pos hid]
    rw [if_neg hid, if_neg hid]
    by_cases hqty : event.quantity ≤ 0
    · rw [if_pos hqty, if_pos hqty]
    rw [if_neg hqty, if_neg hqty]
    by_cases hprice : event.price ≤ 0
    · rw [if_pos hprice, if_pos hprice]
    rw [if_neg hprice, if_neg hprice]
    exact addOrder_eq hvalid (by omega) hfresh
  | cancelOrder event =>
    simp only [onInput, PriorityBook.onInput, PriorityBook.onCancelOrder]
    by_cases hid : event.orderId ≤ 0
    · rw [if_pos hid, if_pos hid]
    rw [if_neg hid, if_neg hid]
    have hfind : (priorities flat).find? event.orderId
        = flat.find? fun o => o.orderId = event.orderId := by
      cases hflat : flat.find? fun o => o.orderId = event.orderId with
      | none =>
        apply List.find?_eq_none.mpr
        intro o ho
        exact List.find?_eq_none.mp hflat o ((orders_perm flat).subset ho)
      | some o =>
        rw [hvalid.find?_eq_some_iff]
        exact ⟨(orders_perm flat).symm.subset (List.mem_of_find?_eq_some hflat),
          by simpa using List.find?_some hflat⟩
    rw [hfind]
    cases flat.find? fun o => o.orderId = event.orderId with
    | none => rfl
    | some o => simp only [priorities_remove]

theorem fits_total {flat : FlatBook} (hvalid : (priorities flat).Valid)
    (hsums : SumsBelow (2 ^ 63) flat) (side : Side) :
    SignedInt.int64.Fits (total (priorities flat side)) := by
  have hsum : total (priorities flat side) < 2 ^ 63 := by
    have hlt := hsums side (by cases side <;> decide)
    rwa [total, ((priorities_perm flat side).map amount).sum_eq]
  exact SignedInt.fits_int64_of_lt (hvalid.positive side).total_nonneg hsum

/-- From a state in which the pointers represent the sorted list, the code and the reference go on
alike. -/
theorem run_eq {c : Clob} {levels : Side → List (List Slot)} {flat : FlatBook}
    {events : List InputEvent} (h : Represents .int64 c levels) (hbook : bookOf levels = priorities flat)
    (hfits : ∀ event ∈ events, event.Fits .int64) (hadmissible : Admissible (2 ^ 63) flat events) :
    ∃ c', c.run .int64 events = .ok (c', (run flat events).2) := by
  induction events generalizing c levels flat with
  | nil => exact ⟨c, rfl⟩
  | cons event events ih =>
    obtain ⟨hsums, hfresh, hrest⟩ := hadmissible
    have hvalid : (priorities flat).Valid := hbook ▸ h.valid
    obtain ⟨c', levels', hinput, hbecomes⟩ := h.onInput (hfits event (List.mem_cons_self ..))
    have hstep := onInput_eq hvalid hfresh
    have hsame : (bookOf levels).onInput (c.probe .int64 event) event
        = (priorities (onInput flat event).1, (onInput flat event).2) := by
      rw [hstep, hbook]
      cases event with
      | cancelOrder event => rfl
      | shutdown => rfl
      | addOrder event =>
        by_cases hqty : event.quantity ≤ 0
        · -- the probe is not asked
          simp [PriorityBook.onInput, PriorityBook.onAddOrder, hqty]
        · have hfitsTotal := fits_total hvalid hsums event.side.opposite
          rw [← hbook] at hfitsTotal
          rw [Clob.probe, exactProbe, h.fillableAtLimit_eq (by omega) hfitsTotal, hbook]
    rw [hsame] at hinput hbecomes
    obtain ⟨c'', hrun⟩ := ih hbecomes.represents hbecomes.book_eq
      (fun e he => hfits e (List.mem_cons_of_mem _ he)) hrest
    refine ⟨c'', ?_⟩
    simp only [Clob.run, hinput, ok_bind, hrun, run]
    rfl

end FlatBook

/-- **The book matches as the reference does.** -/
theorem run_emits_reference (events : List InputEvent)
    (hfits : ∀ event ∈ events, event.Fits .int64)
    (hadmissible : FlatBook.Admissible (2 ^ 63) [] events) :
    ∃ c, Clob.run .int64 {} events = .ok (c, (FlatBook.run [] events).2) :=
  FlatBook.run_eq (represents_empty .int64) rfl hfits hadmissible

theorem run_emits_reference_sweep :
    ∃ c, Clob.run .int64 {} [
        .addOrder ⟨1, .sell, 5, 101, .gtc⟩, .addOrder ⟨2, .sell, 4, 100, .gtc⟩,
        .addOrder ⟨3, .sell, 7, 100, .gtc⟩, .addOrder ⟨4, .buy, 30, 101, .fok⟩,
        .cancelOrder ⟨2⟩, .addOrder ⟨5, .buy, 8, 101, .ioc⟩] =
      .ok (c, [
        .orderResting ⟨1, 0, 5⟩, .orderResting ⟨2, 0, 4⟩, .orderResting ⟨3, 0, 7⟩,
        .orderCancelled ⟨4, 0, 30, .fillOrKill⟩, .orderCancelled ⟨2, 0, 4, .userRequest⟩,
        .trade ⟨5, 3, 7⟩, .orderFilled ⟨3, 7⟩, .trade ⟨5, 1, 1⟩, .orderResting ⟨1, 1, 4⟩,
        .orderFilled ⟨5, 8⟩]) :=
  run_emits_reference _ (by decide +kernel) (by decide +kernel)

end MatchingEngine
