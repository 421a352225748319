import MatchingEngine.Book.Ladder
import MatchingEngine.Book.MatchAgainst

/-!
# The code matches by price-time priority

Every input takes a book that the pointers represent to one that they represent again, and what it
does to the orders and what it emits is what matching by price-time priority prescribes. There is no
fault on the way: every pointer is to a node, no assertion fails and no loop runs out of fuel. A run
from the empty book is therefore a run of `PriorityBook`, input by input.
-/

namespace MatchingEngine

open Divisible Linked PriorityBook

variable {T : SignedInt} {c : Clob} {levels : Side → List (List Slot)} {side : Side}

namespace Clob

@[simp] theorem sideBook_setSideBook (c : Clob) (book : OrderBookSide side) :
    (c.setSideBook book).sideBook side = book := by
  cases side <;> rfl

theorem sideBook_setSideBook_of_ne (c : Clob) {s : Side} (hs : s ≠ side) (book : OrderBookSide side) :
    (c.setSideBook book).sideBook s = c.sideBook s := by
  cases side <;> cases s
  · exact absurd rfl hs
  · rfl
  · rfl
  · exact absurd rfl hs

@[simp] theorem arena_setSideBook (c : Clob) (book : OrderBookSide side) :
    (c.setSideBook book).arena = c.arena := by
  cases side <;> rfl

@[simp] theorem lookup_setSideBook (c : Clob) (book : OrderBookSide side) :
    (c.setSideBook book).lookup = c.lookup := by
  cases side <;> rfl

end Clob

theorem bookOf_update (levels : Side → List (List Slot)) (side : Side) (queues : List (List Slot)) :
    bookOf (Function.update levels side queues)
      = Function.update (bookOf levels) side (ordersOf queues) := by
  funext s
  by_cases hs : s = side
  · subst hs
    simp [bookOf]
  · simp [bookOf, hs]

theorem represents_empty (T : SignedInt) : Represents T {} fun _ => [] where
  sides side := by cases side <;> exact List.Forall₂.nil
  lookup orderId p := by simp [allSlots]
  fits := by simp
  valid := valid_empty

/-! ### Addresses -/

theorem addresses_nodup {arena : Heap OrderNode} {slots : List Slot}
    (hholds : ∀ slot ∈ slots, Holds arena slot)
    (hnodup : (slots.map fun slot => slot.2.orderId).Nodup) : (slots.map Prod.fst).Nodup := by
  rw [List.Nodup, List.pairwise_map] at hnodup ⊢
  refine hnodup.imp_of_mem ?_
  intro slot slot' hslot hslot' hne heq
  rw [(hholds slot hslot).unique (hholds slot' hslot') heq] at hne
  exact hne rfl

namespace Represents

theorem holds (h : Represents T c levels) {slot : Slot} (hslot : slot ∈ (levels side).flatten) :
    Holds c.arena slot :=
  ladder_holds (h.sides side) slot hslot

theorem nodup (h : Represents T c levels) (side : Side) :
    (((levels side).flatten ++ (levels side.opposite).flatten).map
      fun slot => slot.2.orderId).Nodup := by
  have hnodup := h.valid.nodup
  rw [← allSlots_map_snd, List.map_map] at hnodup
  exact (((allSlots_perm levels side).map _).nodup_iff).mp hnodup

theorem lookup_side (h : Represents T c levels) (side : Side) :
    LooksUp c.lookup ((levels side).flatten ++ (levels side.opposite).flatten) :=
  h.lookup.perm (allSlots_perm levels side)

/-- No node is on two chains. -/
theorem addresses (h : Represents T c levels) (side : Side) :
    (((levels side).flatten ++ (levels side.opposite).flatten).map Prod.fst).Nodup := by
  have hholds : ∀ slot ∈ (levels side).flatten ++ (levels side.opposite).flatten,
      Holds c.arena slot := by
    intro slot hslot
    rcases List.mem_append.mp hslot with hslot | hslot
    · exact h.holds hslot
    · exact h.holds hslot
  exact addresses_nodup hholds (h.nodup side)

theorem addresses_side (h : Represents T c levels) (side : Side) :
    ((levels side).flatten.map Prod.fst).Nodup := by
  have haddr := h.addresses side
  rw [List.map_append] at haddr
  exact (List.nodup_append.mp haddr).1

theorem not_mem_opposite (h : Represents T c levels) {slot : Slot}
    (hslot : slot ∈ (levels side.opposite).flatten) : slot.1 ∉ (levels side).flatten.map Prod.fst := by
  intro hmem
  have haddr := h.addresses side
  rw [List.map_append, List.nodup_append] at haddr
  exact haddr.2.2 _ hmem _ (List.mem_map_of_mem hslot) rfl

/-- The pointers represent `book` now, through nodes that they did before or that are new. -/
structure Becomes (T : SignedInt) (c : Clob) (levels : Side → List (List Slot)) (book : PriorityBook)
    (c' : Clob) (levels' : Side → List (List Slot)) : Prop where
  represents : Represents T c' levels'
  book_eq : bookOf levels' = book
  linked : ∀ s, ∀ p ∈ (levels' s).flatten.map Prod.fst, p < c.arena.size →
    p ∈ (levels s).flatten.map Prod.fst
  size_le : c.arena.size ≤ c'.arena.size

theorem becomes_self (h : Represents T c levels) :
    Becomes T c levels (bookOf levels) c levels where
  represents := h
  book_eq := rfl
  linked _ _ hp _ := hp
  size_le := le_refl _

theorem Becomes.trans {c' c'' : Clob} {levels' levels'' : Side → List (List Slot)}
    {book book' : PriorityBook} (h : Becomes T c levels book c' levels')
    (h' : Becomes T c' levels' book' c'' levels'') : Becomes T c levels book' c'' levels'' where
  represents := h'.represents
  book_eq := h'.book_eq
  linked s p hp hlt := h.linked s p (h'.linked s p hp (hlt.trans_le h.size_le)) hlt
  size_le := h.size_le.trans h'.size_le

/-- Changing the levels of one side, the lookup with them, and nodes of that side only. -/
theorem update (h : Represents T c levels) {book' : OrderBookSide side} {lookup' : Int → Option Ptr}
    {arena' : Heap OrderNode} {queues : List (List Slot)}
    (hholds : List.Forall₂ (LevelHolds T arena') book'.levels.entries queues)
    (hframe : ∀ slot ∈ (levels side.opposite).flatten, arena'.read slot.1 = c.arena.read slot.1)
    (hlookup : LooksUp lookup' (queues.flatten ++ (levels side.opposite).flatten))
    (hfits : ∀ slot ∈ queues.flatten, T.Fits slot.2.quantity)
    (hvalid : Valid (Function.update (bookOf levels) side (ordersOf queues)))
    (hlinked : ∀ p ∈ queues.flatten.map Prod.fst, p < c.arena.size →
      p ∈ (levels side).flatten.map Prod.fst)
    (hsize : c.arena.size ≤ arena'.size) :
    Becomes T c levels (Function.update (bookOf levels) side (ordersOf queues))
      ({ c with lookup := lookup', arena := arena' }.setSideBook book')
      (Function.update levels side queues) := by
  have hne : side.opposite ≠ side := Side.opposite_ne side
  refine ⟨⟨?_, ?_, ?_, ?_⟩, bookOf_update .., ?_, by rwa [Clob.arena_setSideBook]⟩
  · intro s
    rw [Clob.arena_setSideBook]
    rcases Side.eq_or_eq_opposite side s with rfl | rfl
    · rw [Clob.sideBook_setSideBook, Function.update_self]
      exact hholds
    · rw [Clob.sideBook_setSideBook_of_ne _ hne, Function.update_of_ne hne]
      exact ladder_congr (h.sides side.opposite) hframe
  · rw [Clob.lookup_setSideBook]
    apply hlookup.perm
    have hperm := allSlots_perm (Function.update levels side queues) side
    rw [Function.update_self, Function.update_of_ne hne] at hperm
    exact hperm.symm
  · intro s
    rcases Side.eq_or_eq_opposite side s with rfl | rfl
    · rw [Function.update_self]
      exact hfits
    · rw [Function.update_of_ne hne]
      exact h.fits side.opposite
  · rw [bookOf_update]
    exact hvalid
  · intro s
    rcases Side.eq_or_eq_opposite side s with rfl | rfl
    · rw [Function.update_self]
      exact hlinked
    · rw [Function.update_of_ne hne]
      exact fun p hp _ => hp

/-- Nodes that no level reaches may change. -/
theorem frame (h : Represents T c levels) {arena' : Heap OrderNode}
    (hframe : ∀ p < c.arena.size, arena'.read p = c.arena.read p) :
    Represents T { c with arena := arena' } levels where
  sides side := by
    have hholds := ladder_congr (h.sides side) fun slot hslot => hframe _ (h.holds hslot).lt_size
    cases side <;> exact hholds
  lookup := h.lookup
  fits := h.fits
  valid := h.valid

/-! ### Matching -/

theorem ready (h : Represents T c levels) {event : AddOrderEvent} (hqty : 0 ≤ event.quantity)
    (hfits : T.Fits event.quantity) :
    SideReady T (levels side.opposite) (levels side).flatten (c.sideBook side.opposite)
      ⟨c.arena, c.lookup, event, 0, []⟩ where
  holds := h.sides side.opposite
  ranked := h.valid.ranked side.opposite
  lookup := by
    have hlookup := h.lookup_side side.opposite
    rwa [Side.opposite_opposite] at hlookup
  nodup := by
    have hnodup := h.nodup side.opposite
    rwa [Side.opposite_opposite] at hnodup
  positive := h.valid.positive side.opposite
  fits := h.fits side.opposite
  demand_nonneg := hqty
  filled_nonneg := le_refl 0
  fits_demand := by
    rw [Int.zero_add]
    exact hfits

/-- The state that matching an order against the book ends in. -/
structure Swept (T : SignedInt) (c : Clob) (levels : Side → List (List Slot)) (event : AddOrderEvent)
    (opposite : OrderBookSide event.side.opposite) (s : MatchState)
    (levels' : Side → List (List Slot)) : Prop where
  becomes : Becomes T c levels ((bookOf levels).sweep event.side event.price event.quantity)
    ({ c with lookup := s.lookup, arena := s.arena }.setSideBook opposite) levels'
  incoming_eq : s.incoming = { event with
    quantity := event.quantity -
      min event.quantity (total ((bookOf levels).makers event.side event.price)) }
  filled_eq : s.filledQuantity =
    min event.quantity (total ((bookOf levels).makers event.side event.price))
  emitted_eq : s.emitted =
    fillEvents event.orderId event.quantity ((bookOf levels).makers event.side event.price)

theorem matchAgainst (h : Represents T c levels) {event : AddOrderEvent} (hqty : 0 ≤ event.quantity)
    (hfits : T.Fits event.quantity) :
    ∃ opposite s levels', MatchingEngine.matchAgainst T (c.sideBook event.side.opposite)
        ⟨c.arena, c.lookup, event, 0, []⟩ = .ok (opposite, s) ∧
      Swept T c levels event opposite s levels' := by
  have hready : SideReady T _ (levels event.side).flatten _ _ := h.ready hqty hfits
  obtain ⟨queues, opposite, s, hloop, hmatched⟩ :=
    matchAgainstLoop_spec (levels event.side.opposite)
      (c.sideBook event.side.opposite).depth _ _ (h.sides event.side.opposite).length_eq.ge hready
  have horders : ordersOf queues
      = left event.quantity ((bookOf levels).makers event.side event.price)
        ++ (bookOf levels).bystanders event.side event.price := hmatched.orders_eq
  have hbook : Function.update (bookOf levels) event.side.opposite (ordersOf queues)
      = (bookOf levels).sweep event.side event.price event.quantity := by
    rw [horders]
    rfl
  refine ⟨opposite, s, Function.update levels event.side.opposite queues, hloop, ?_,
    hmatched.incoming_eq, ?_, ?_⟩
  · rw [← hbook]
    apply h.update hmatched.holds
    · intro slot hslot
      exact hmatched.frame _ (h.not_mem_opposite hslot)
    · rw [Side.opposite_opposite]
      exact hmatched.lookup
    · -- what is left of an order fits because the order did
      intro slot hslot
      have hmem : slot.2 ∈ ordersOf queues := List.mem_map_of_mem hslot
      have hle : ∃ o ∈ ordersOf (levels event.side.opposite), slot.2.quantity ≤ o.quantity := by
        rw [horders, List.mem_append] at hmem
        rcases hmem with hmem | hmem
        · obtain ⟨o, ho, hle⟩ := exists_of_mem_left
            (h.valid.positive_makers event.side event.price) hmem
          exact ⟨o, (crossed_sublist ..).subset ho, hle⟩
        · exact ⟨slot.2, List.mem_of_mem_filter hmem, le_refl _⟩
      obtain ⟨o, ho, hle⟩ := hle
      obtain ⟨slot', hslot', rfl⟩ := List.mem_map.mp ho
      have hpositive : Positive (ordersOf queues) := by
        have hvalid := (h.valid.sweep event.side event.price event.quantity).positive
          event.side.opposite
        rwa [← hbook, Function.update_self] at hvalid
      have hpos := hpositive _ hmem
      exact (h.fits _ slot' hslot').of_le (le_of_lt hpos) hle
    · rw [hbook]
      exact h.valid.sweep event.side event.price event.quantity
    · intro p hp _
      exact hmatched.suffix.subset hp
    · exact hmatched.size_eq.ge
  · rw [hmatched.filled_eq]
    exact Int.zero_add _
  · rw [hmatched.emitted_eq]
    rfl

/-! ### Resting -/

/-- The same book: ladders, lookup and every node there was, whatever may have been allocated. -/
structure SameBook (c c' : Clob) : Prop where
  bids : c'.bids = c.bids
  asks : c'.asks = c.asks
  lookup : c'.lookup = c.lookup
  nodes : ∀ p < c.arena.size, c'.arena.read p = c.arena.read p

theorem lookup_isSome_iff (h : Represents T c levels) {orderId : Int} :
    (c.lookup orderId).isSome ↔ orderId ∈ (bookOf levels).orders.map RestingOrder.orderId := by
  rw [← allSlots_map_snd, List.map_map, Option.isSome_iff_ne_none, ne_eq, h.lookup.eq_none_iff,
    not_not]
  rfl

/-- An id that rests already is turned away, and the node made for it is reachable from nowhere. -/
theorem restOrder_duplicate (h : Represents T c levels) (side : Side) (residual : AddOrderEvent)
    (hmem : residual.orderId ∈ (bookOf levels).orders.map RestingOrder.orderId) :
    ∃ c', c.restOrder T side residual = .ok (false, c') ∧ SameBook c c' ∧
      Becomes T c levels (bookOf levels) c' levels := by
  have hsome : (c.lookup residual.orderId).isSome = true := h.lookup_isSome_iff.mpr hmem
  have hsize : c.arena.size < (c.arena.alloc (Clob.allocateRestingNode residual)).size := by
    simp
  have hnodes : ∀ p < c.arena.size, ((c.arena.alloc (Clob.allocateRestingNode residual)).modify
      c.arena.size fun n => { n with active := false }).read p = c.arena.read p := by
    intro p hp
    rw [Heap.read_modify_of_ne _ hp.ne', Heap.read_alloc_of_lt _ _ hp]
  refine ⟨{ c with
      arena := (c.arena.alloc (Clob.allocateRestingNode residual)).modify c.arena.size
        fun n => { n with active := false } }, ?_, ⟨rfl, rfl, rfl, hnodes⟩,
    h.frame hnodes, rfl, fun _ _ hp _ => hp, by simp⟩
  simp only [Clob.restOrder, hsome, if_true, assign_eq hsize]
  rfl

theorem restOrder_fresh (h : Represents T c levels) (residual : AddOrderEvent)
    (hfits : T.Fits residual.quantity)
    (hfresh : residual.orderId ∉ (bookOf levels).orders.map RestingOrder.orderId)
    (hvalid : ((bookOf levels).rest
      ⟨residual.orderId, residual.side, residual.price, residual.quantity⟩).Valid) :
    ∃ c' levels', c.restOrder T residual.side residual = .ok (true, c') ∧
      Becomes T c levels ((bookOf levels).rest
        ⟨residual.orderId, residual.side, residual.price, residual.quantity⟩) c' levels' := by
  have hnone : c.lookup residual.orderId = none := by
    rw [← Option.not_isSome_iff_eq_none, h.lookup_isSome_iff]
    exact hfresh
  have hold : ∀ p < c.arena.size, (c.arena.alloc (Clob.allocateRestingNode residual)).read p
      = c.arena.read p := by
    intro p hp
    exact Heap.read_alloc_of_lt _ _ hp
  have hgrown := h.frame hold
  have hnew : ∀ s, c.arena.size ∉ (levels s).flatten.map Prod.fst := by
    intro s hmem
    obtain ⟨slot, hslot, heq⟩ := List.mem_map.mp hmem
    exact absurd heq (h.holds hslot).lt_size.ne
  have hholds := ladder_congr (h.sides residual.side)
    fun slot hslot => hold _ (h.holds hslot).lt_size
  obtain ⟨book', arena', queues, happend, happended⟩ :=
    append_spec hholds (Heap.read_alloc_self ..) rfl rfl (hnew residual.side)
      (h.addresses_side residual.side)
  have horders : Function.update (bookOf levels) residual.side (ordersOf queues)
      = (bookOf levels).rest
        ⟨residual.orderId, residual.side, residual.price, residual.quantity⟩ := by
    rw [happended.orders_eq]
    rfl
  refine ⟨({ c with
      lookup := Function.update c.lookup residual.orderId (some c.arena.size)
      arena := arena' }).setSideBook book',
    Function.update levels residual.side queues, ?_, ?_⟩
  · simp only [Clob.restOrder, hnone, Option.isSome_none, happend, ok_bind]
    rfl
  · rw [← horders]
    apply h.update happended.holds
    · intro slot hslot
      rw [happended.frame, hold _ (h.holds hslot).lt_size]
      rw [List.mem_cons, not_or]
      exact ⟨(h.holds hslot).lt_size.ne, h.not_mem_opposite hslot⟩
    · have hlookup : LooksUp _ ((c.arena.size, (Clob.allocateRestingNode residual).order) :: _) :=
        (h.lookup_side residual.side).insert hnone
      exact hlookup.perm (happended.perm.append_right _).symm
    · intro slot hslot
      rcases List.mem_cons.mp (happended.perm.mem_iff.mp hslot) with rfl | hslot
      · exact hfits
      · exact h.fits _ slot hslot
    · rw [horders]
      exact hvalid
    · intro p hp hlt
      have hmem := (happended.perm.map Prod.fst).mem_iff.mp hp
      exact (List.mem_cons.mp hmem).resolve_left hlt.ne
    · rw [happended.size_eq]
      simp

/-! ### Cancelling -/

theorem cancelResting (h : Represents T c levels) {slot : Slot}
    (hslot : slot ∈ (levels side).flatten) :
    ∃ c' levels', c.cancelResting T side slot.1 slot.2.orderId slot.2.quantity =
        .ok (c', [.orderCancelled ⟨slot.2.orderId, 0, slot.2.quantity, .userRequest⟩]) ∧
      Becomes T c levels ((bookOf levels).withdraw slot.2.orderId) c' levels' := by
  obtain ⟨book', arena', queues, hdetach, hdetached⟩ :=
    detach_spec (h.sides side) (h.addresses_side side) hslot
  obtain ⟨xs, ys, hxs, hqueues⟩ := hdetached.split
  have hsize : slot.1 < arena'.size := by
    rw [hdetached.size_eq]
    exact (h.holds hslot).lt_size
  have hsplit : bookOf levels side = xs.map Prod.snd ++ slot.2 :: ys.map Prod.snd := by
    rw [bookOf, ordersOf, hxs, List.map_append, List.map_cons]
  have hbook : Function.update (bookOf levels) side (ordersOf queues)
      = (bookOf levels).withdraw slot.2.orderId := by
    rw [withdraw_eq_update h.valid hsplit, ordersOf, hqueues, List.map_append]
  have hperm : ((levels side).flatten ++ (levels side.opposite).flatten).Perm
      (slot :: (queues.flatten ++ (levels side.opposite).flatten)) := by
    rw [hxs, hqueues]
    exact List.perm_middle.append_right _
  have hne : ∀ slot' ∈ queues.flatten ++ (levels side.opposite).flatten, slot.1 ≠ slot'.1 := by
    intro slot' hslot' heq
    have haddr := (hperm.map Prod.fst).nodup_iff.mp (h.addresses side)
    exact (List.nodup_cons.mp haddr).1 (heq ▸ List.mem_map_of_mem hslot')
  have hsub : ∀ slot' ∈ queues.flatten, slot' ∈ (levels side).flatten := by
    intro slot' hslot'
    rw [hqueues, List.mem_append] at hslot'
    rw [hxs, List.mem_append]
    exact hslot'.imp_right (List.mem_cons_of_mem _)
  refine ⟨({ c with
      lookup := Function.update c.lookup slot.2.orderId none
      arena := arena'.modify slot.1 fun n => { n with active := false } }).setSideBook book',
    Function.update levels side queues, ?_, ?_⟩
  · simp only [Clob.cancelResting, hdetach, ok_bind, assign_eq hsize]
    rfl
  · rw [← hbook]
    apply h.update
    · apply ladder_congr hdetached.holds
      intro slot' hslot'
      exact Heap.read_modify_of_ne _ (hne slot' (List.mem_append_left _ hslot')) _
    · intro slot' hslot'
      rw [Heap.read_modify_of_ne _ (hne slot' (List.mem_append_right _ hslot'))]
      exact hdetached.frame _ (h.not_mem_opposite hslot')
    · apply ((h.lookup_side side).perm hperm).erase
      have hnodup := (hperm.map fun slot => slot.2.orderId).nodup_iff.mp (h.nodup side)
      exact (List.nodup_cons.mp hnodup).1
    · intro slot' hslot'
      exact h.fits side slot' (hsub slot' hslot')
    · rw [hbook]
      exact h.valid.withdraw slot.2.orderId
    · intro p hp _
      obtain ⟨slot', hslot', rfl⟩ := List.mem_map.mp hp
      exact List.mem_map_of_mem (hsub slot' hslot')
    · rw [Heap.size_modify, hdetached.size_eq]

end Represents

end MatchingEngine
