import MatchingEngine.Book.MatchLevel

/-!
# Matching against a side

The outer loop of matching, walked over the levels of a side. A level that the limit crosses is
filled from; if the demand drains it, it is the level that is popped, and otherwise the demand is met
and the loop ends. A level that the limit does not cross ends the loop, and by the order of the
ladder nothing behind it is crossed either. By induction along the levels the loop fills the demand
from the crossed orders of the whole side.
-/

namespace MatchingEngine

open Divisible Linked PriorityBook

variable {T : SignedInt} {side : Side} {book : OrderBookSide side} {s : MatchState}
  {levels : List (List Slot)} {others : List Slot}

/-- A side that represents `levels`, in a book whose other slots are `others`, met by a demand. -/
structure SideReady (T : SignedInt) (levels : List (List Slot)) (others : List Slot)
    (book : OrderBookSide side) (s : MatchState) : Prop where
  holds : List.Forall₂ (LevelHolds T s.arena) book.levels.entries levels
  ranked : Ranked side (ordersOf levels)
  lookup : LooksUp s.lookup (levels.flatten ++ others)
  nodup : ((levels.flatten ++ others).map fun slot => slot.2.orderId).Nodup
  positive : Positive (ordersOf levels)
  fits : ∀ slot ∈ levels.flatten, T.Fits slot.2.quantity
  demand_nonneg : 0 ≤ s.incoming.quantity
  filled_nonneg : 0 ≤ s.filledQuantity
  fits_demand : T.Fits (s.filledQuantity + s.incoming.quantity)

/-- The demand has been filled from what the limit crosses: what was `levels` is now `levels'`. -/
structure SideMatched (T : SignedInt) (levels : List (List Slot)) (others : List Slot)
    (s : MatchState) (levels' : List (List Slot)) (book' : OrderBookSide side) (s' : MatchState) :
    Prop where
  holds : List.Forall₂ (LevelHolds T s'.arena) book'.levels.entries levels'
  orders_eq : ordersOf levels' =
    left s.incoming.quantity (crossed side s.incoming.price (ordersOf levels)) ++
      uncrossed side s.incoming.price (ordersOf levels)
  suffix : levels'.flatten.map Prod.fst <:+ levels.flatten.map Prod.fst
  lookup : LooksUp s'.lookup (levels'.flatten ++ others)
  incoming_eq : s'.incoming = { s.incoming with
    quantity := s.incoming.quantity -
      min s.incoming.quantity (total (crossed side s.incoming.price (ordersOf levels))) }
  filled_eq : s'.filledQuantity = s.filledQuantity +
    min s.incoming.quantity (total (crossed side s.incoming.price (ordersOf levels)))
  emitted_eq : s'.emitted = s.emitted ++
    fillEvents s.incoming.orderId s.incoming.quantity
      (crossed side s.incoming.price (ordersOf levels))
  frame : ∀ p ∉ levels.flatten.map Prod.fst, s'.arena.read p = s.arena.read p
  size_eq : s'.arena.size = s.arena.size

theorem matchAgainstLoop_of_done (fuel : Nat) (hdone : s.incoming.quantity = 0) :
    matchAgainstLoop T fuel book s = .ok (book, s) := by
  have hnot : ¬ 0 < s.incoming.quantity := by omega
  cases fuel <;> simp [matchAgainstLoop, hnot, pure, Except.pure]

/-- Nothing happens where the demand is met or nothing is crossed. -/
theorem SideReady.matched_self (h : SideReady T levels others book s)
    (hdone : s.incoming.quantity = 0 ∨ crossed side s.incoming.price (ordersOf levels) = []) :
    SideMatched T levels others s levels book s := by
  have hq := h.demand_nonneg
  have hsplit := h.ranked.crossed_append_uncrossed s.incoming.price
  have hcrossed : Positive (crossed side s.incoming.price (ordersOf levels)) :=
    fun o ho => h.positive o ((crossed_sublist ..).subset ho)
  have hmin : min s.incoming.quantity (total (crossed side s.incoming.price (ordersOf levels)))
      = 0 := by
    have hnonneg := hcrossed.total_nonneg
    rcases hdone with hzero | hnil
    · omega
    · rw [hnil, total_nil]
      omega
  have hleft : left s.incoming.quantity (crossed side s.incoming.price (ordersOf levels))
      = crossed side s.incoming.price (ordersOf levels) := by
    rcases hdone with hzero | hnil
    · exact left_of_nonpos hzero.le _
    · rw [hnil]
      rfl
  have htakes : takes s.incoming.quantity (crossed side s.incoming.price (ordersOf levels))
      = [] := by
    rcases hdone with hzero | hnil
    · exact takes_of_nonpos hzero.le _
    · rw [hnil]
      rfl
  refine ⟨h.holds, ?_, List.suffix_rfl, h.lookup, ?_, ?_, ?_, fun _ _ => rfl, rfl⟩
  · rw [hleft, hsplit]
  · rw [hmin, Int.sub_zero]
  · rw [hmin, Int.add_zero]
  · rw [fillEvents, htakes, List.flatMap_nil, List.append_nil]

section Level

variable {price : Int} {level : PriceLevel} {entries : List (Int × PriceLevel)} {queue : List Slot}

/-- The orders of one level are crossed all together. -/
theorem LevelHolds.crossed_eq {arena : Heap OrderNode}
    (h : LevelHolds T arena (price, level) queue) {limit : Int} (hcross : Crosses side limit price) :
    crossed side limit (queue.map Prod.snd) = queue.map Prod.snd ∧
      uncrossed side limit (queue.map Prod.snd) = [] := by
  have hall : ∀ o ∈ queue.map Prod.snd, Crosses side limit o.price := by
    intro o ho
    obtain ⟨slot, hslot, rfl⟩ := List.mem_map.mp ho
    rw [h.price_eq slot hslot]
    exact hcross
  constructor
  · exact List.filter_eq_self.mpr fun o ho => by simpa using hall o ho
  · exact List.filter_eq_nil_iff.mpr fun o ho => by simpa using hall o ho

theorem LevelHolds.exists_cons {arena : Heap OrderNode} {entry : Int × PriceLevel}
    (h : LevelHolds T arena entry queue) : ∃ slot rest, queue = slot :: rest :=
  List.exists_cons_of_ne_nil h.nonempty

variable (h : SideReady T (queue :: levels) others book s)

include h

theorem SideReady.positive_level : Positive (queue.map Prod.snd) ∧ Positive (ordersOf levels) := by
  have hpositive := h.positive
  rw [ordersOf_cons] at hpositive
  exact positive_append.mp hpositive

theorem SideReady.ranked_tail : Ranked side (ordersOf levels) := by
  have hranked := h.ranked
  rw [ordersOf_cons] at hranked
  exact hranked.sublist (List.sublist_append_right ..)

variable (hentries : book.levels.entries = (price, level) :: entries)

include hentries

theorem SideReady.head : LevelHolds T s.arena (price, level) queue := by
  have hholds := h.holds
  rw [hentries] at hholds
  exact (List.forall₂_cons.mp hholds).1

theorem SideReady.tail : List.Forall₂ (LevelHolds T s.arena) entries levels := by
  have hholds := h.holds
  rw [hentries] at hholds
  exact (List.forall₂_cons.mp hholds).2

/-- A level beyond the limit has nothing crossed behind it. -/
theorem SideReady.crossed_eq_nil (hcross : ¬ Crosses side s.incoming.price price) :
    crossed side s.incoming.price (ordersOf (queue :: levels)) = [] := by
  have hlevel := h.head hentries
  have hranked := h.ranked
  obtain ⟨slot, rest, rfl⟩ := hlevel.exists_cons
  rw [ordersOf_cons, List.map_cons, List.cons_append] at hranked ⊢
  apply hranked.crossed_eq_nil
  rw [hlevel.price_eq slot (List.mem_cons_self ..)]
  exact hcross

theorem SideReady.levelReady :
    LevelReady T queue (levels.flatten ++ others) level { s with filledQuantity := 0 } := by
  have hlevel := h.head hentries
  have hflatten : queue ++ (levels.flatten ++ others) = (queue :: levels).flatten ++ others := by
    rw [List.flatten_cons, List.append_assoc]
  have hpositive := h.positive
  rw [ordersOf_cons] at hpositive
  have hfilled := h.filled_nonneg
  have hdemand := h.demand_nonneg
  refine ⟨hlevel.chain, hlevel.holds, ?_, ?_, (positive_append.mp hpositive).1, ?_, hdemand,
    le_refl 0, ?_⟩
  · rw [hflatten]
    exact h.lookup
  · rw [hflatten]
    exact h.nodup
  · intro slot hslot
    exact h.fits slot (List.mem_append_left _ hslot)
  · refine h.fits_demand.of_le ?_ ?_ <;> simp only <;> omega

/-- No other slot of the book lives at an address of the level. -/
theorem SideReady.not_mem_ptrs {slot : Slot} (hslot : slot ∈ levels.flatten ++ others)
    (hholds : Holds s.arena slot) : slot.1 ∉ queue.map Prod.fst := by
  intro hmem
  obtain ⟨slot', hslot', heq⟩ := List.mem_map.mp hmem
  have hlevel := h.head hentries
  obtain rfl := (hlevel.holds slot' hslot').unique hholds heq
  have hnodup := h.nodup
  rw [List.flatten_cons, List.append_assoc, List.map_append, List.nodup_append] at hnodup
  exact hnodup.2.2 _ (List.mem_map_of_mem hslot') _ (List.mem_map_of_mem hslot) rfl

/-- A crossed level is crossed as a whole, and in front of whatever is crossed behind it. -/
theorem SideReady.crossed_cons (hcross : Crosses side s.incoming.price price) :
    crossed side s.incoming.price (ordersOf (queue :: levels)) =
        queue.map Prod.snd ++ crossed side s.incoming.price (ordersOf levels) ∧
      uncrossed side s.incoming.price (ordersOf (queue :: levels)) =
        uncrossed side s.incoming.price (ordersOf levels) := by
  obtain ⟨hall, hnone⟩ := (h.head hentries).crossed_eq hcross
  rw [ordersOf_cons, crossed_append, uncrossed_append, hall, hnone]
  exact ⟨rfl, List.nil_append _⟩

/-- What happens to the nodes of the level at hand leaves the levels behind it as they were. -/
theorem SideReady.tail_congr {arena : Heap OrderNode}
    (hframe : ∀ p ∉ queue.map Prod.fst, arena.read p = s.arena.read p) :
    List.Forall₂ (LevelHolds T arena) entries levels := by
  have htail := h.tail hentries
  refine ladder_congr htail fun slot hslot => hframe _ ?_
  exact h.not_mem_ptrs hentries (List.mem_append_left _ hslot) (ladder_holds htail slot hslot)

end Level

/-! ### The loop -/

theorem matchLevel_spec {queue : List Slot} {level : PriceLevel}
    (h : LevelReady T queue others level { s with filledQuantity := 0 }) :
    ∃ queue' level' r, matchLevel T level s = .ok (level', r) ∧
      LevelMatched T queue others level { s with filledQuantity := 0 } queue' level' r := by
  refine matchLevelLoop_spec queue _ _ _ ?_ h
  have hlength := h.chain.length_le_size
  rwa [List.length_map] at hlength

/-- The state of the outer loop after a level has been matched. -/
def MatchState.afterLevel (s r : MatchState) : MatchState :=
  { r with filledQuantity := s.filledQuantity + r.filledQuantity }

section Round

variable {price : Int} {level level' : PriceLevel} {entries : List (Int × PriceLevel)}
  {queue queue' : List Slot} {r : MatchState}

variable (h : SideReady T (queue :: levels) others book s)
  (hentries : book.levels.entries = (price, level) :: entries)
  (hcross : Crosses side s.incoming.price price)
  (hmatched : LevelMatched T queue (levels.flatten ++ others) level { s with filledQuantity := 0 }
    queue' level' r)

include hmatched

theorem round_incoming_eq : r.incoming = { s.incoming with
    quantity := s.incoming.quantity - min s.incoming.quantity (total (queue.map Prod.snd)) } :=
  hmatched.incoming_eq

theorem round_filled_eq :
    r.filledQuantity = min s.incoming.quantity (total (queue.map Prod.snd)) := by
  rw [hmatched.filled_eq]
  exact Int.zero_add _

include h

theorem SideReady.round_add_eq : T.add s.filledQuantity r.filledQuantity =
    s.filledQuantity + r.filledQuantity := by
  have hnonneg := h.positive_level.1.total_nonneg
  have hdemand := h.demand_nonneg
  have hfilled := h.filled_nonneg
  rw [round_filled_eq hmatched]
  apply SignedInt.Fits.add_eq
  exact h.fits_demand.of_le (by omega) (by omega)

include hentries

/-- A level is drained if and only if it holds no more than the demand. -/
theorem SideReady.drained_iff : level'.head = none ↔
    total (queue.map Prod.snd) ≤ s.incoming.quantity := by
  have hne : queue.map Prod.snd ≠ [] := by simpa using (h.head hentries).nonempty
  rw [hmatched.chain.head_eq_none_iff, ← left_eq_nil_iff h.positive_level.1 hne,
    ← hmatched.orders_eq]
  simp

/-- A drained level leaves the levels behind it, and the rest of the demand. -/
theorem SideReady.next (hdrained : level'.head = none) {book' : OrderBookSide side}
    (hentries' : book'.levels.entries = entries) :
    SideReady T levels others book' (s.afterLevel r) := by
  have hle := (h.drained_iff hentries hmatched).mp hdrained
  have hpos := h.positive_level
  have hnonneg := hpos.1.total_nonneg
  have hfilled := h.filled_nonneg
  have hqueue : queue' = [] := by
    have hnil := hmatched.chain.head_eq_none_iff.mp hdrained
    simpa using hnil
  have hlookup := hmatched.lookup
  have hnodup := h.nodup
  rw [hqueue, List.nil_append] at hlookup
  rw [List.flatten_cons, List.append_assoc, List.map_append] at hnodup
  have hqty : (s.afterLevel r).incoming.quantity
      = s.incoming.quantity - total (queue.map Prod.snd) := by
    rw [MatchState.afterLevel, round_incoming_eq hmatched, min_eq_right hle]
  have hfill : (s.afterLevel r).filledQuantity
      = s.filledQuantity + total (queue.map Prod.snd) := by
    rw [MatchState.afterLevel, round_filled_eq hmatched, min_eq_right hle]
  refine ⟨?_, h.ranked_tail, hlookup, (List.nodup_append.mp hnodup).2.1, hpos.2, ?_, ?_, ?_, ?_⟩
  · rw [hentries']
    exact h.tail_congr hentries hmatched.frame
  · intro slot hslot
    exact h.fits slot (List.mem_append_right _ hslot)
  · rw [hqty]
    omega
  · rw [hfill]
    omega
  · rw [hqty, hfill]
    have hfits := h.fits_demand
    rwa [show s.filledQuantity + total (queue.map Prod.snd)
      + (s.incoming.quantity - total (queue.map Prod.snd)) = s.filledQuantity + s.incoming.quantity
      by omega]

include hcross

/-- What the loop does to the levels behind a drained one, it does to the whole side. -/
theorem SideReady.matched_of_next (hdrained : level'.head = none) {levels' : List (List Slot)}
    {book' : OrderBookSide side} {s' : MatchState}
    (hrest : SideMatched T levels others (s.afterLevel r) levels' book' s') :
    SideMatched T (queue :: levels) others s levels' book' s' := by
  have hle := (h.drained_iff hentries hmatched).mp hdrained
  have hpos := h.positive_level
  have hnonneg := hpos.1.total_nonneg
  have hcrossedNonneg : 0 ≤ total (crossed side s.incoming.price (ordersOf levels)) :=
    Positive.total_nonneg fun o ho => hpos.2 o ((crossed_sublist ..).subset ho)
  obtain ⟨hall, hnone⟩ := h.crossed_cons hentries hcross
  have hincoming : (s.afterLevel r).incoming = { s.incoming with
      quantity := s.incoming.quantity - total (queue.map Prod.snd) } := by
    rw [MatchState.afterLevel, round_incoming_eq hmatched, min_eq_right hle]
  have hfill : (s.afterLevel r).filledQuantity
      = s.filledQuantity + total (queue.map Prod.snd) := by
    rw [MatchState.afterLevel, round_filled_eq hmatched, min_eq_right hle]
  have hdrainedOrders : left s.incoming.quantity (queue.map Prod.snd) = [] := by
    have hnil := hmatched.chain.head_eq_none_iff.mp hdrained
    rw [← hmatched.orders_eq, List.map_eq_nil_iff]
    simpa using hnil
  refine ⟨hrest.holds, ?_, ?_, hrest.lookup, ?_, ?_, ?_, ?_, ?_⟩
  · rw [hrest.orders_eq, hincoming, hall, hnone, left_append hpos.1, hdrainedOrders, List.nil_append]
  · rw [List.flatten_cons, List.map_append]
    exact hrest.suffix.trans (List.suffix_append ..)
  · rw [hrest.incoming_eq, hincoming, hall, total_append]
    simp only [AddOrderEvent.mk.injEq, true_and, and_true]
    omega
  · rw [hrest.filled_eq, hfill, hincoming, hall, total_append]
    simp only
    omega
  · rw [hrest.emitted_eq, hincoming, hall, fillEvents, fillEvents, takes_append hpos.1,
      List.flatMap_append, ← List.append_assoc]
    congr 1
    exact hmatched.emitted_eq
  · intro p hp
    rw [List.flatten_cons, List.map_append, List.mem_append, not_or] at hp
    rw [hrest.frame p hp.2]
    exact hmatched.frame p hp.1
  · rw [hrest.size_eq]
    exact hmatched.size_eq

/-- A level that is not drained is where the demand ends. -/
theorem SideReady.matched_of_ended (hended : level'.head ≠ none) {book' : OrderBookSide side}
    (hentries' : book'.levels.entries = (price, level') :: entries) :
    SideMatched T (queue :: levels) others s (queue' :: levels) book' (s.afterLevel r) := by
  have hlevel := h.head hentries
  have hlt : s.incoming.quantity < total (queue.map Prod.snd) := by
    have hnot := mt (h.drained_iff hentries hmatched).mpr hended
    omega
  have hpos := h.positive_level
  have hcrossedNonneg : 0 ≤ total (crossed side s.incoming.price (ordersOf levels)) :=
    Positive.total_nonneg fun o ho => hpos.2 o ((crossed_sublist ..).subset ho)
  obtain ⟨hall, hnone⟩ := h.crossed_cons hentries hcross
  refine ⟨?_, ?_, ?_, ?_, ?_, ?_, ?_, ?_, ?_⟩
  · rw [hentries']
    refine List.Forall₂.cons ⟨hmatched.chain, ?_, hmatched.holds, ?_, ?_⟩
      (h.tail_congr hentries hmatched.frame)
    · intro hnil
      rw [ne_eq, hmatched.chain.head_eq_none_iff, hnil] at hended
      exact hended rfl
    · -- matching does not change the price of what it leaves
      intro slot hslot
      have hprices : (queue'.map Prod.snd).map RestingOrder.price <:+
          (queue.map Prod.snd).map RestingOrder.price := by
        rw [hmatched.orders_eq]
        exact map_left_suffix (fun _ _ => rfl) _ _
      have hmem := hprices.subset (List.mem_map_of_mem (List.mem_map_of_mem hslot))
      simp only [List.map_map, List.mem_map, Function.comp_apply] at hmem
      obtain ⟨slot', hslot', heq⟩ := hmem
      rw [← heq]
      exact hlevel.price_eq slot' hslot'
    · exact hmatched.total_eq hlevel.total_eq
  · rw [ordersOf_cons, hmatched.orders_eq, hall, hnone, left_append hpos.1,
      left_of_nonpos (q := s.incoming.quantity - _) (by omega), List.append_assoc,
      h.ranked_tail.crossed_append_uncrossed]
  · rw [List.flatten_cons, List.flatten_cons, List.map_append, List.map_append]
    exact List.suffix_append_self_iff.mpr hmatched.suffix
  · rw [List.flatten_cons, List.append_assoc]
    exact hmatched.lookup
  · rw [hall, total_append, MatchState.afterLevel, round_incoming_eq hmatched]
    simp only [AddOrderEvent.mk.injEq, true_and, and_true]
    omega
  · rw [hall, total_append, MatchState.afterLevel, round_filled_eq hmatched]
    simp only
    omega
  · rw [hall, fillEvents, takes_append hpos.1, takes_of_nonpos (q := s.incoming.quantity - _)
      (by omega), List.append_nil]
    exact hmatched.emitted_eq
  · intro p hp
    rw [List.flatten_cons, List.map_append, List.mem_append, not_or] at hp
    exact hmatched.frame p hp.1
  · exact hmatched.size_eq

end Round

/-- **The outer loop.** Given fuel for the levels, it returns, and it has filled the demand. -/
theorem matchAgainstLoop_spec (levels : List (List Slot)) :
    ∀ (fuel : Nat) (book : OrderBookSide side) (s : MatchState), levels.length ≤ fuel →
      SideReady T levels others book s →
      ∃ levels' book' s', matchAgainstLoop T fuel book s = .ok (book', s') ∧
        SideMatched T levels others s levels' book' s' := by
  induction levels with
  | nil =>
    intro fuel book s _ h
    have hentries : book.levels.entries = [] := List.forall₂_nil_right_iff.mp h.holds
    refine ⟨[], book, s, ?_, h.matched_self (Or.inr rfl)⟩
    cases fuel <;> simp [matchAgainstLoop, OrderBookSide.bestLevel, OrderedMap.first?, hentries, pure,
      Except.pure]
  | cons queue levels ih =>
    intro fuel book s hfuel h
    by_cases hzero : s.incoming.quantity = 0
    · exact ⟨queue :: levels, book, s, matchAgainstLoop_of_done _ hzero, h.matched_self (Or.inl hzero)⟩
    have hdemand : 0 < s.incoming.quantity := by
      have := h.demand_nonneg
      omega
    obtain ⟨⟨price, level⟩, entries, -, -, hentries⟩ := List.forall₂_cons_right_iff.mp h.holds
    have hbest : book.bestLevel = some (price, level) := by
      rw [OrderBookSide.bestLevel, OrderedMap.first?, hentries, List.head?_cons]
    obtain ⟨fuel, rfl⟩ : ∃ n, fuel = n + 1 := ⟨fuel - 1, by rw [List.length_cons] at hfuel; omega⟩
    rw [matchAgainstLoop, if_pos hdemand, hbest]
    by_cases hcross : Crosses side s.incoming.price price
    · obtain ⟨queue', level', r, hlevel, hmatched⟩ := matchLevel_spec (h.levelReady hentries)
      have hput : (book.levels.put price level').entries = (price, level') :: entries :=
        OrderedMap.put_first hentries
      simp only [if_pos hcross, hlevel, ok_bind, h.round_add_eq hmatched]
      by_cases hdrained : level'.head = none
      · -- the level is popped, and the loop goes on with the levels behind it
        rw [if_pos hdrained]
        have hpop : (OrderBookSide.popBestLevel ⟨book.levels.put price level'⟩ :
            OrderBookSide side).levels.entries = entries := by
          rw [OrderBookSide.popBestLevel, OrderedMap.entries_eraseFirst, hput, List.tail_cons]
        obtain ⟨levels', book', s', hloop, hrest⟩ :=
          ih fuel _ _ (by simpa using hfuel) (h.next hentries hmatched hdrained hpop)
        exact ⟨levels', book', s', hloop, h.matched_of_next hentries hcross hmatched hdrained hrest⟩
      · -- the demand ended in the level
        rw [if_neg hdrained]
        have hended : SideMatched T _ others s _ (⟨book.levels.put price level'⟩ : OrderBookSide side) _ :=
          h.matched_of_ended hentries hcross hmatched hdrained hput
        refine ⟨queue' :: levels, _, _, matchAgainstLoop_of_done _ ?_, hended⟩
        have hlt := mt (h.drained_iff hentries hmatched).mpr hdrained
        rw [round_incoming_eq hmatched]
        simp only
        omega
    · exact ⟨queue :: levels, book, s, by simp [if_neg hcross, pure, Except.pure],
        h.matched_self (Or.inr (h.crossed_eq_nil hentries hcross))⟩

end MatchingEngine
