import MatchingEngine.Book.Represents

/-!
# Matching one level

The inner loop of matching, walked over the queue of slots that the level represents. One step
either retires the slot at the head, which leaves a level that represents the rest of the queue, or
takes the demand's last quantity off it. By induction along the queue the whole loop fills the demand
greedily from the level, in the sense of `takes` and `left`.
-/

namespace MatchingEngine

open Divisible Linked PriorityBook

variable {T : SignedInt} {level : PriceLevel} {s : MatchState} {slot : Slot}
  {queue others : List Slot} {p : Ptr} {ps : List Ptr} {node : OrderNode}

/-- The arena after the node at the head of a level is retired. -/
def retiredArena (arena : Heap OrderNode) (p : Ptr) (next : Option Ptr) : Heap OrderNode :=
  (unlink arena none next p).modify p fun n => { n with active := false }

theorem retireResting_eq {arena : Heap OrderNode} {head tail : Option Ptr}
    (hchain : IsChain arena head tail (p :: ps)) (hread : arena.read p = some node)
    (totalQuantity : Int) (lookup : Int → Option Ptr) (incoming : AddOrderEvent)
    (filledQuantity : Int) (emitted : List OutputEvent) :
    retireResting ⟨head, tail, totalQuantity⟩ p ⟨arena, lookup, incoming, filledQuantity, emitted⟩ =
      .ok (⟨ps.head?, ps.getLast?, totalQuantity⟩,
        ⟨retiredArena arena p ps.head?, Function.update lookup node.orderId none, incoming,
          filledQuantity, emitted⟩) := by
  have hunlink : unlinkFromLevel ⟨head, tail, totalQuantity⟩ arena p =
      .ok (⟨ps.head?, ps.getLast?, totalQuantity⟩, unlink arena none ps.head? p) :=
    @unlinkFromLevel_eq arena p ⟨head, tail, totalQuantity⟩ [] ps hchain
  have hp : p < (unlink arena none ps.head? p).size := by
    rw [size_unlink]
    exact Heap.lt_size_of_read hread
  have hactive : ∀ n : OrderNode, OrderNode.orderId { n with active := false } = n.orderId :=
    fun _ => rfl
  obtain ⟨retired, hretired, hid⟩ : ∃ retired,
      (retiredArena arena p ps.head?).read p = some retired ∧ retired.orderId = node.orderId := by
    have hmap : ((retiredArena arena p ps.head?).read p).map OrderNode.orderId
        = some node.orderId := by
      rw [retiredArena, Heap.map_read_modify _ _ _ hactive,
        map_read_unlink (g := OrderNode.orderId) (fun _ _ => rfl) (fun _ _ => rfl), hread,
        Option.map_some]
    exact Option.map_eq_some_iff.mp hmap
  simp only [retireResting, hunlink, ok_bind, assign_eq hp]
  rw [retiredArena] at hretired
  simp only [deref_eq hretired, ok_bind, hid]
  rfl

/-- The state after the demand has taken the slot at the head whole. -/
def MatchState.takeWhole (s : MatchState) (slot : Slot) (next : Option Ptr) : MatchState where
  arena := retiredArena s.arena slot.1 next
  lookup := Function.update s.lookup slot.2.orderId none
  incoming := { s.incoming with quantity := s.incoming.quantity - slot.2.quantity }
  filledQuantity := s.filledQuantity + slot.2.quantity
  emitted := s.emitted ++ takeEvents s.incoming.orderId (slot.2, slot.2.quantity)

/-- The state after the demand has ended in the slot at the head. -/
def MatchState.takePart (s : MatchState) (slot : Slot) : MatchState where
  arena := s.arena.modify slot.1 fun n =>
    { n with quantity := slot.2.quantity - s.incoming.quantity }
  lookup := s.lookup
  incoming := { s.incoming with quantity := 0 }
  filledQuantity := s.filledQuantity + s.incoming.quantity
  emitted := s.emitted ++ takeEvents s.incoming.orderId (slot.2, s.incoming.quantity)

theorem matchLevelStep_full (hchain : IsChain s.arena level.head level.tail (slot.1 :: ps))
    (hholds : Holds s.arena slot) (hle : slot.2.quantity ≤ s.incoming.quantity)
    (hincoming : T.Fits (s.incoming.quantity - slot.2.quantity))
    (hfilled : T.Fits (s.filledQuantity + slot.2.quantity)) :
    matchLevelStep T slot.1 level s =
      .ok (ps.head?,
        ⟨ps.head?, ps.getLast?, T.sub level.totalQuantity slot.2.quantity⟩,
        s.takeWhole slot ps.head?) := by
  obtain ⟨node, hread, hactive, horder⟩ := hholds.exists_node
  have hnext : node.nextSamePrice = ps.head? := by
    have hlinks := hchain.links_head
    rw [links_of_read hread] at hlinks
    exact congrArg Prod.snd (Option.some.inj hlinks)
  have hid : node.orderId = slot.2.orderId := congrArg RestingOrder.orderId horder
  have hqty : node.quantity = slot.2.quantity := congrArg RestingOrder.quantity horder
  have hmin : min s.incoming.quantity slot.2.quantity = slot.2.quantity := min_eq_right hle
  have hremaining : T.sub slot.2.quantity slot.2.quantity = 0 := by simp [SignedInt.sub]
  simp only [matchLevelStep, deref_eq hread, ok_bind, hactive, hnext, hid, hqty, hmin, hremaining,
    reduceCtorEq, if_false, if_true, hincoming.sub_eq, hfilled.add_eq]
  rw [retireResting_eq hchain hread, hid]
  simp [MatchState.takeWhole, takeEvents, pure, Except.pure]

theorem matchLevelStep_part (hholds : Holds s.arena slot)
    (hlt : s.incoming.quantity < slot.2.quantity)
    (hremaining : T.Fits (slot.2.quantity - s.incoming.quantity))
    (hfilled : T.Fits (s.filledQuantity + s.incoming.quantity)) :
    ∃ next, matchLevelStep T slot.1 level s =
      .ok (next,
        { level with totalQuantity := T.sub level.totalQuantity s.incoming.quantity },
        s.takePart slot) := by
  obtain ⟨node, hread, hactive, horder⟩ := hholds.exists_node
  have hid : node.orderId = slot.2.orderId := congrArg RestingOrder.orderId horder
  have hqty : node.quantity = slot.2.quantity := congrArg RestingOrder.quantity horder
  have hmin : min s.incoming.quantity slot.2.quantity = s.incoming.quantity := min_eq_left hlt.le
  have hzero : T.sub s.incoming.quantity s.incoming.quantity = 0 := by simp [SignedInt.sub]
  have hne : slot.2.quantity - s.incoming.quantity ≠ 0 := by omega
  refine ⟨node.nextSamePrice, ?_⟩
  simp only [matchLevelStep, deref_eq hread, ok_bind, hactive, hid, hqty, hmin, hzero,
    hremaining.sub_eq, hne, reduceCtorEq, if_false, hfilled.add_eq,
    assign_eq (Heap.lt_size_of_read hread)]
  simp [MatchState.takePart, takeEvents, hlt.ne, pure, Except.pure]

/-! ### The loop -/

/-- A level that represents `queue`, in a book whose other slots are `others`, met by a demand. -/
structure LevelReady (T : SignedInt) (queue others : List Slot) (level : PriceLevel)
    (s : MatchState) : Prop where
  chain : IsChain s.arena level.head level.tail (queue.map Prod.fst)
  holds : ∀ slot ∈ queue, Holds s.arena slot
  lookup : LooksUp s.lookup (queue ++ others)
  nodup : ((queue ++ others).map fun slot => slot.2.orderId).Nodup
  positive : Positive (queue.map Prod.snd)
  fits : ∀ slot ∈ queue, T.Fits slot.2.quantity
  demand_nonneg : 0 ≤ s.incoming.quantity
  filled_nonneg : 0 ≤ s.filledQuantity
  fits_demand : T.Fits (s.filledQuantity + s.incoming.quantity)

/-- The demand has been filled from the level: what was `queue` is now `queue'`. -/
structure LevelMatched (T : SignedInt) (queue others : List Slot) (level : PriceLevel)
    (s : MatchState) (queue' : List Slot) (level' : PriceLevel) (s' : MatchState) : Prop where
  orders_eq : queue'.map Prod.snd = left s.incoming.quantity (queue.map Prod.snd)
  suffix : queue'.map Prod.fst <:+ queue.map Prod.fst
  chain : IsChain s'.arena level'.head level'.tail (queue'.map Prod.fst)
  holds : ∀ slot ∈ queue', Holds s'.arena slot
  lookup : LooksUp s'.lookup (queue' ++ others)
  total_eq : level.totalQuantity = T.wrap (total (queue.map Prod.snd)) →
    level'.totalQuantity = T.wrap (total (queue'.map Prod.snd))
  incoming_eq : s'.incoming = { s.incoming with
    quantity := s.incoming.quantity - min s.incoming.quantity (total (queue.map Prod.snd)) }
  filled_eq : s'.filledQuantity =
    s.filledQuantity + min s.incoming.quantity (total (queue.map Prod.snd))
  emitted_eq : s'.emitted =
    s.emitted ++ fillEvents s.incoming.orderId s.incoming.quantity (queue.map Prod.snd)
  size_eq : s'.arena.size = s.arena.size
  frame : ∀ p ∉ queue.map Prod.fst, s'.arena.read p = s.arena.read p

/-- Nothing happens where the demand is met or the queue is empty. -/
theorem LevelReady.matched_self (h : LevelReady T queue others level s)
    (hdone : s.incoming.quantity = 0 ∨ queue = []) :
    LevelMatched T queue others level s queue level s := by
  have hmin : min s.incoming.quantity (total (queue.map Prod.snd)) = 0 := by
    have hnonneg := h.positive.total_nonneg
    have hq := h.demand_nonneg
    rcases hdone with hzero | hnil
    · omega
    · simp [hnil, hq]
  have htakes : takes s.incoming.quantity (queue.map Prod.snd) = [] := by
    rcases hdone with hzero | hnil
    · exact takes_of_nonpos hzero.le _
    · simp [hnil, takes]
  refine ⟨?_, List.suffix_rfl, h.chain, h.holds, h.lookup, id, ?_, ?_, ?_, rfl, fun _ _ => rfl⟩
  · rcases hdone with hzero | hnil
    · rw [left_of_nonpos hzero.le]
    · simp [hnil, left]
  · rw [hmin, Int.sub_zero]
  · rw [hmin, Int.add_zero]
  · rw [fillEvents, htakes, List.flatMap_nil, List.append_nil]

theorem matchLevelLoop_of_done (fuel : Nat) (cursor : Option Ptr) (hdone : s.incoming.quantity = 0) :
    matchLevelLoop T fuel cursor level s = .ok (level, s) := by
  have hnot : ¬ 0 < s.incoming.quantity := by omega
  cases fuel <;> cases cursor <;> simp [matchLevelLoop, hnot, pure, Except.pure]

section Step

variable (h : LevelReady T (slot :: queue) others level s)

include h

theorem LevelReady.ne_of_mem {slot' : Slot} (hmem : slot' ∈ queue) : slot.1 ≠ slot'.1 := by
  intro heq
  exact (List.nodup_cons.mp h.chain.nodup).1 (heq ▸ List.mem_map_of_mem hmem)

/-- With the head retired, the level represents the rest of the queue. -/
theorem LevelReady.takeWhole (hle : slot.2.quantity ≤ s.incoming.quantity) :
    LevelReady T queue others
      ⟨(queue.map Prod.fst).head?, (queue.map Prod.fst).getLast?,
        T.sub level.totalQuantity slot.2.quantity⟩
      (s.takeWhole slot (queue.map Prod.fst).head?) := by
  obtain ⟨hqty, hpositive⟩ := positive_cons.mp h.positive
  rw [amount_restingOrder] at hqty
  have hfilled := h.filled_nonneg
  obtain ⟨hfresh, hnodup⟩ := List.nodup_cons.mp h.nodup
  refine ⟨?_, ?_, h.lookup.erase hfresh, hnodup, hpositive, ?_, ?_, ?_, ?_⟩
  · have hchain := h.chain.unlink_head
    refine hchain.congr fun p _ => ?_
    exact Heap.map_read_modify (f := fun n : OrderNode => { n with active := false }) _ _ _
      fun _ => rfl
  · intro slot' hmem
    have hholds := h.holds slot' (List.mem_cons_of_mem _ hmem)
    have hunlink : Holds (unlink s.arena none (queue.map Prod.fst).head? slot.1) slot' :=
      holds_unlink_iff.mpr hholds
    exact hunlink.congr (Heap.read_modify_of_ne _ (h.ne_of_mem hmem) _)
  · exact fun slot' hmem => h.fits slot' (List.mem_cons_of_mem _ hmem)
  · change 0 ≤ s.incoming.quantity - slot.2.quantity
    omega
  · change 0 ≤ s.filledQuantity + slot.2.quantity
    omega
  · refine h.fits_demand.of_le ?_ ?_ <;> simp only [MatchState.takeWhole] <;> omega

/-- What the loop does to the rest of the queue, it does to the whole of it. -/
theorem LevelReady.matched_of_takeWhole (hle : slot.2.quantity ≤ s.incoming.quantity)
    {queue' : List Slot} {level' : PriceLevel} {s' : MatchState}
    (hrest : LevelMatched T queue others
      ⟨(queue.map Prod.fst).head?, (queue.map Prod.fst).getLast?,
        T.sub level.totalQuantity slot.2.quantity⟩
      (s.takeWhole slot (queue.map Prod.fst).head?) queue' level' s') :
    LevelMatched T (slot :: queue) others level s queue' level' s' := by
  obtain ⟨hqty, hpositive⟩ := positive_cons.mp h.positive
  rw [amount_restingOrder] at hqty
  have hnonneg := hpositive.total_nonneg
  have htotal : total ((slot :: queue).map Prod.snd)
      = slot.2.quantity + total (queue.map Prod.snd) := by
    rw [List.map_cons, total_cons, amount_restingOrder]
  have hrestQty : (s.takeWhole slot (queue.map Prod.fst).head?).incoming.quantity
      = s.incoming.quantity - slot.2.quantity := rfl
  refine ⟨?_, ?_, hrest.chain, hrest.holds, hrest.lookup, ?_, ?_, ?_, ?_, ?_, ?_⟩
  · rw [hrest.orders_eq, List.map_cons, left, if_neg (by omega),
      if_neg (by rw [amount_restingOrder]; omega)]
    rfl
  · exact hrest.suffix.trans (List.suffix_cons ..)
  · intro htotalQuantity
    apply hrest.total_eq
    change T.sub level.totalQuantity slot.2.quantity = _
    rw [htotalQuantity, htotal, SignedInt.sub, SignedInt.wrap_wrap_sub, add_sub_cancel_left]
  · rw [hrest.incoming_eq, htotal, hrestQty]
    simp only [MatchState.takeWhole, AddOrderEvent.mk.injEq, true_and, and_true]
    omega
  · rw [hrest.filled_eq, htotal, hrestQty]
    simp only [MatchState.takeWhole]
    omega
  · rw [hrest.emitted_eq, hrestQty, fillEvents, fillEvents, List.map_cons, takes, if_pos (by omega),
      List.flatMap_cons, amount_restingOrder, min_eq_right hle, ← List.append_assoc]
    rfl
  · rw [hrest.size_eq]
    simp [MatchState.takeWhole, retiredArena]
  · intro p hp
    have hne : slot.1 ≠ p := fun heq => hp (heq ▸ List.mem_cons_self ..)
    rw [hrest.frame p fun hmem => hp (List.mem_cons_of_mem _ hmem)]
    change (retiredArena s.arena slot.1 (queue.map Prod.fst).head?).read p = _
    rw [retiredArena, Heap.read_modify_of_ne _ hne]
    exact read_unlink_head_of_not_mem hp

/-- A demand that ends in the head leaves the level's list as it is. -/
theorem LevelReady.matched_of_takePart (hdemand : 0 < s.incoming.quantity)
    (hlt : s.incoming.quantity < slot.2.quantity) :
    LevelMatched T (slot :: queue) others level s
      ((slot.1, { slot.2 with quantity := slot.2.quantity - s.incoming.quantity }) :: queue)
      { level with totalQuantity := T.sub level.totalQuantity s.incoming.quantity }
      (s.takePart slot) := by
  obtain ⟨hqty, hpositive⟩ := positive_cons.mp h.positive
  have hnonneg := hpositive.total_nonneg
  have htotal : total ((slot :: queue).map Prod.snd)
      = slot.2.quantity + total (queue.map Prod.snd) := by
    rw [List.map_cons, total_cons, amount_restingOrder]
  have hmin : min s.incoming.quantity (total ((slot :: queue).map Prod.snd))
      = s.incoming.quantity := by omega
  refine ⟨?_, List.suffix_rfl, ?_, ?_, ?_, ?_, ?_, ?_, ?_, ?_, ?_⟩
  · rw [List.map_cons, List.map_cons, left, if_neg (by omega), amount_restingOrder, if_pos hlt]
    rfl
  · refine h.chain.congr fun p _ => ?_
    exact Heap.map_read_modify (f := fun n : OrderNode =>
      { n with quantity := slot.2.quantity - s.incoming.quantity }) _ _ _ fun _ => rfl
  · intro slot' hmem
    rcases List.mem_cons.mp hmem with rfl | hmem
    · obtain ⟨node, hread, hactive, horder⟩ := (h.holds slot (List.mem_cons_self ..)).exists_node
      simp only [Holds, MatchState.takePart, Heap.read_modify_self, hread, Option.map_some]
      rw [← horder]
      simp [OrderNode.order, hactive]
    · refine (h.holds slot' (List.mem_cons_of_mem _ hmem)).congr ?_
      exact Heap.read_modify_of_ne _ (h.ne_of_mem hmem) _
  · intro orderId p
    change s.lookup orderId = some p ↔ _
    rw [h.lookup orderId p]
    simp only [List.cons_append, List.mem_cons, exists_eq_or_imp]
  · intro htotalQuantity
    change T.sub level.totalQuantity s.incoming.quantity = _
    rw [htotalQuantity, htotal, SignedInt.sub, SignedInt.wrap_wrap_sub, List.map_cons, total_cons,
      amount_restingOrder]
    congr 1
    simp only
    omega
  · rw [hmin, Int.sub_self]
    rfl
  · rw [hmin]
    rfl
  · rw [fillEvents, List.map_cons, takes, if_pos hdemand, takes_of_nonpos (by
      rw [amount_restingOrder]
      omega), amount_restingOrder, min_eq_left hlt.le, List.flatMap_cons, List.flatMap_nil,
      List.append_nil]
    rfl
  · exact Heap.size_modify ..
  · intro p hp
    have hne : slot.1 ≠ p := fun heq => hp (heq ▸ List.mem_cons_self ..)
    exact Heap.read_modify_of_ne _ hne _

end Step

/-- **The inner loop.** Given fuel for the queue, it returns, and it has filled the demand. -/
theorem matchLevelLoop_spec (queue : List Slot) :
    ∀ (fuel : Nat) (level : PriceLevel) (s : MatchState), queue.length ≤ fuel →
      LevelReady T queue others level s →
      ∃ queue' level' s', matchLevelLoop T fuel level.head level s = .ok (level', s') ∧
        LevelMatched T queue others level s queue' level' s' := by
  induction queue with
  | nil =>
    intro fuel level s _ h
    have hhead : level.head = none := h.chain.head_eq
    refine ⟨[], level, s, ?_, h.matched_self (Or.inr rfl)⟩
    rw [hhead]
    cases fuel <;> rfl
  | cons slot queue ih =>
    intro fuel level s hfuel h
    have hhead : level.head = some slot.1 := h.chain.head_eq
    by_cases hzero : s.incoming.quantity = 0
    · exact ⟨slot :: queue, level, s, matchLevelLoop_of_done _ _ hzero, h.matched_self (Or.inl hzero)⟩
    have hdemand : 0 < s.incoming.quantity := by
      have := h.demand_nonneg
      omega
    obtain ⟨fuel, rfl⟩ : ∃ n, fuel = n + 1 := ⟨fuel - 1, by rw [List.length_cons] at hfuel; omega⟩
    have hslot : Holds s.arena slot := h.holds slot (List.mem_cons_self ..)
    have hqty : 0 < slot.2.quantity := (positive_cons.mp h.positive).1
    have hfits := h.fits_demand
    have hfilled := h.filled_nonneg
    rw [hhead, matchLevelLoop, if_pos hdemand]
    by_cases hle : slot.2.quantity ≤ s.incoming.quantity
    · -- the head is retired, and the loop goes on with the rest of the queue
      rw [matchLevelStep_full h.chain hslot hle (hfits.of_le (by omega) (by omega))
        (hfits.of_le (by omega) (by omega)), ok_bind]
      obtain ⟨queue', level', s', hloop, hrest⟩ :=
        ih fuel _ _ (by simpa using hfuel) (h.takeWhole hle)
      exact ⟨queue', level', s', hloop, h.matched_of_takeWhole hle hrest⟩
    · -- the demand ends in the head
      have hlt : s.incoming.quantity < slot.2.quantity := by omega
      obtain ⟨next, hstep⟩ := matchLevelStep_part hslot hlt
        ((h.fits slot (List.mem_cons_self ..)).of_le (by omega) (by omega)) hfits
      rw [hstep, ok_bind]
      exact ⟨_, _, _, matchLevelLoop_of_done fuel next rfl, h.matched_of_takePart hdemand hlt⟩

end MatchingEngine
