import MatchingEngine.Book.Represents

/-!
# Entering and leaving a ladder

`append` and `detach` on a side that represents a list of queues. The level at the order's price is
where they act: its list gains or loses one address, its total follows, and the level itself appears
with its first order and disappears with its last. No other level is touched.
-/

namespace MatchingEngine

open Divisible Linked PriorityBook

section Forall₂

variable {α β : Type*} {R : α → β → Prop} {as bs : List α} {a : α} {l : List β}

theorem forall₂_append_left (h : List.Forall₂ R (as ++ bs) l) :
    ∃ as' bs', l = as' ++ bs' ∧ List.Forall₂ R as as' ∧ List.Forall₂ R bs bs' := by
  induction as generalizing l with
  | nil => exact ⟨[], l, rfl, List.Forall₂.nil, h⟩
  | cons a as ih =>
    obtain ⟨b, l, hab, hl, rfl⟩ := List.forall₂_cons_left_iff.mp h
    obtain ⟨as', bs', rfl, has, hbs⟩ := ih hl
    exact ⟨b :: as', bs', rfl, List.Forall₂.cons hab has, hbs⟩

theorem forall₂_split_left (h : List.Forall₂ R (as ++ a :: bs) l) :
    ∃ as' b bs', l = as' ++ b :: bs' ∧ List.Forall₂ R as as' ∧ R a b ∧ List.Forall₂ R bs bs' := by
  obtain ⟨as', l, rfl, has, hl⟩ := forall₂_append_left h
  obtain ⟨b, bs', hab, hbs, rfl⟩ := List.forall₂_cons_left_iff.mp hl
  exact ⟨as', b, bs', rfl, has, hab, hbs⟩

end Forall₂

variable {T : SignedInt} {side : Side} {book : OrderBookSide side} {arena : Heap OrderNode}
  {levels : List (List Slot)} {p : Ptr} {node : OrderNode}

section Splice

variable {before after : List (Int × PriceLevel)} {entry : Int × PriceLevel}
  {bs as : List (List Slot)} {queue : List Slot} {arena' : Heap OrderNode}

theorem mem_addresses (hmem : p ∈ queue.map Prod.fst) :
    p ∈ (bs ++ queue :: as).flatten.map Prod.fst := by
  rw [List.flatten_append, List.flatten_cons, List.map_append, List.map_append]
  exact List.mem_append_right _ (List.mem_append_left _ hmem)

/-- A level put between the levels in front of it and behind it. -/
theorem ladder_splice (hbs : List.Forall₂ (LevelHolds T arena) before bs)
    (has : List.Forall₂ (LevelHolds T arena) after as) (hentry : LevelHolds T arena' entry queue)
    (hframe : ∀ slot ∈ bs.flatten ++ as.flatten, arena'.read slot.1 = arena.read slot.1) :
    List.Forall₂ (LevelHolds T arena') (before ++ entry :: after) (bs ++ queue :: as) := by
  apply List.rel_append
  · exact ladder_congr hbs fun slot hslot => hframe slot (List.mem_append_left _ hslot)
  · apply List.Forall₂.cons hentry
    exact ladder_congr has fun slot hslot => hframe slot (List.mem_append_right _ hslot)

theorem ladder_close (hbs : List.Forall₂ (LevelHolds T arena) before bs)
    (has : List.Forall₂ (LevelHolds T arena) after as)
    (hframe : ∀ slot ∈ bs.flatten ++ as.flatten, arena'.read slot.1 = arena.read slot.1) :
    List.Forall₂ (LevelHolds T arena') (before ++ after) (bs ++ as) := by
  apply List.rel_append
  · exact ladder_congr hbs fun slot hslot => hframe slot (List.mem_append_left _ hslot)
  · exact ladder_congr has fun slot hslot => hframe slot (List.mem_append_right _ hslot)

theorem not_mem_level (haddr : ((bs ++ queue :: as).flatten.map Prod.fst).Nodup) :
    ∀ slot ∈ bs.flatten ++ as.flatten, slot.1 ∉ queue.map Prod.fst := by
  intro slot hslot hmem
  simp only [List.flatten_append, List.flatten_cons, List.map_append] at haddr
  obtain ⟨-, hrest, hbs⟩ := List.nodup_append.mp haddr
  obtain ⟨-, -, has⟩ := List.nodup_append.mp hrest
  rcases List.mem_append.mp hslot with hslot | hslot
  · exact hbs _ (List.mem_map_of_mem hslot) _ (List.mem_append_left _ hmem) rfl
  · exact has _ hmem _ (List.mem_map_of_mem hslot) rfl

theorem ladder_price {P : Int → Prop} {entries : List (Int × PriceLevel)}
    (h : List.Forall₂ (LevelHolds T arena) entries levels) (hP : ∀ e ∈ entries, P e.1) :
    ∀ o ∈ ordersOf levels, P o.price := by
  induction h with
  | nil => simp [ordersOf]
  | cons hlevel _ ih =>
    intro o ho
    rw [ordersOf_cons, List.mem_append] at ho
    rcases ho with ho | ho
    · obtain ⟨slot, hslot, rfl⟩ := List.mem_map.mp ho
      rw [hlevel.price_eq slot hslot]
      exact hP _ (List.mem_cons_self ..)
    · exact ih (fun e he => hP e (List.mem_cons_of_mem _ he)) o ho

/-- An order at the price of a level is not better priced than those in front of the level. -/
theorem not_better_of_before {price : Int} (hbs : List.Forall₂ (LevelHolds T arena) before bs)
    (hbefore : ∀ e ∈ before, RestingLevelsCompare side e.1 price) :
    ∀ o ∈ ordersOf bs, ¬ RestingLevelsCompare side price o.price := by
  apply ladder_price (P := fun q => ¬ RestingLevelsCompare side price q) hbs
  intro e he hlt
  exact OrderedMap.not_lt_self _ _ (trans_of _ hlt (hbefore e he))

end Splice

/-! ### Entering -/

/-- A level with an order behind its last one. -/
theorem LevelHolds.pushBack {entry : Int × PriceLevel} {queue : List Slot}
    (hlevel : LevelHolds T arena entry queue) (hread : arena.read p = some node)
    (hactive : node.active = true) (hprice : node.price = entry.1)
    (hfresh : p ∉ queue.map Prod.fst) :
    LevelHolds T (Linked.pushBack arena entry.2.tail p)
      (entry.1, ⟨entry.2.head, some p, T.add entry.2.totalQuantity node.quantity⟩)
      (queue ++ [(p, node.order)]) := by
  obtain ⟨slot, rest, hqueue⟩ := List.exists_cons_of_ne_nil hlevel.nonempty
  have hhead : entry.2.head = some slot.1 := by
    rw [hlevel.chain.head_eq, hqueue, List.map_cons, List.head?_cons]
  refine ⟨?_, by simp, ?_, ?_, ?_⟩
  · have hchain := hlevel.chain.pushBack hfresh (Heap.lt_size_of_read hread)
    rw [hhead, Option.some_or] at hchain
    simpa [hhead] using hchain
  · intro slot hslot
    rw [holds_pushBack_iff]
    rcases List.mem_append.mp hslot with hslot | hslot
    · exact hlevel.holds slot hslot
    · rw [List.mem_singleton.mp hslot]
      exact holds_of_read hread hactive
  · intro slot hslot
    rcases List.mem_append.mp hslot with hslot | hslot
    · exact hlevel.price_eq slot hslot
    · rw [List.mem_singleton.mp hslot]
      exact hprice
  · simp only
    rw [hlevel.total_eq, SignedInt.add, SignedInt.wrap_wrap_add, List.map_append, total_append]
    simp [OrderNode.order]

/-- A level made for its first order. -/
theorem levelHolds_singleton (hread : arena.read p = some node) (hactive : node.active = true) :
    LevelHolds T (Linked.pushBack arena none p)
      (node.price, ⟨some p, some p, T.add 0 node.quantity⟩) [(p, node.order)] := by
  refine ⟨?_, by simp, ?_, ?_, ?_⟩
  · have hempty : IsChain arena none none [] := ⟨rfl, rfl, List.nodup_nil, trivial⟩
    exact hempty.pushBack List.not_mem_nil (Heap.lt_size_of_read hread)
  · intro slot hslot
    rw [holds_pushBack_iff, List.mem_singleton.mp hslot]
    exact holds_of_read hread hactive
  · intro slot hslot
    rw [List.mem_singleton.mp hslot]
    rfl
  · simp [SignedInt.add, OrderNode.order]

structure Appended (T : SignedInt) (arena : Heap OrderNode) (levels : List (List Slot)) (p : Ptr)
    (order : RestingOrder) (book' : OrderBookSide side) (arena' : Heap OrderNode)
    (levels' : List (List Slot)) : Prop where
  holds : List.Forall₂ (LevelHolds T arena') book'.levels.entries levels'
  orders_eq : ordersOf levels' = enqueue order (ordersOf levels)
  perm : levels'.flatten.Perm ((p, order) :: levels.flatten)
  frame : ∀ q ∉ p :: levels.flatten.map Prod.fst, arena'.read q = arena.read q
  size_eq : arena'.size = arena.size

section Append

variable (hholds : List.Forall₂ (LevelHolds T arena) book.levels.entries levels)
  (hread : arena.read p = some node) (hactive : node.active = true) (hside : node.side = side)
  (hfresh : p ∉ levels.flatten.map Prod.fst)

include hholds hread hactive hside hfresh

theorem append_new (hfind : book.levels.find? node.price = none) :
    ∃ book' arena' levels', book.append T arena p = .ok (book', arena') ∧
      Appended T arena levels p node.order book' arena' levels' := by
  subst hside
  obtain ⟨before, after, hentries, hbefore, hafter, hput⟩ :=
    OrderedMap.exists_put_new (OrderedMap.find?_eq_none_iff.mp hfind)
  rw [hentries] at hholds
  obtain ⟨bs, as, rfl, hbs, has⟩ := forall₂_append_left hholds
  have hframe : ∀ q ≠ p, (Linked.pushBack arena none p).read q = arena.read q := by
    intro q hq
    exact Heap.read_modify_of_ne _ hq.symm _
  refine ⟨⟨book.levels.put node.price ⟨some p, some p, T.add 0 node.quantity⟩⟩,
    Linked.pushBack arena none p, bs ++ [(p, node.order)] :: as, ?_, ?_, ?_, ?_, ?_, ?_⟩
  · simp [OrderBookSide.append, deref_eq hread, hfind, assign_eq (Heap.lt_size_of_read hread)]
    rfl
  · rw [hput]
    apply ladder_splice hbs has (levelHolds_singleton hread hactive)
    intro slot hslot
    apply hframe
    intro heq
    rw [← List.flatten_append] at hslot
    exact hfresh (heq ▸ List.mem_map_of_mem hslot)
  · rw [ordersOf_append, ordersOf_append, ordersOf_cons, enqueue_append]
    · rfl
    · exact not_better_of_before hbs hbefore
    · exact ladder_price has hafter
  · rw [List.flatten_append, List.flatten_append, List.flatten_cons]
    exact List.perm_middle
  · intro q hq
    exact hframe q (List.ne_of_not_mem_cons hq)
  · exact size_pushBack

theorem append_present {level : PriceLevel} (haddr : (levels.flatten.map Prod.fst).Nodup)
    (hfind : book.levels.find? node.price = some level) :
    ∃ book' arena' levels', book.append T arena p = .ok (book', arena') ∧
      Appended T arena levels p node.order book' arena' levels' := by
  subst hside
  obtain ⟨before, after, hentries⟩ := OrderedMap.exists_split_of_find? hfind
  obtain ⟨hbefore, hafter⟩ := OrderedMap.sorted_split hentries
  rw [hentries] at hholds
  obtain ⟨bs, queue, as, rfl, hbs, hlevel, has⟩ := forall₂_split_left hholds
  have hqueue : p ∉ queue.map Prod.fst := fun hmem => hfresh (mem_addresses hmem)
  obtain ⟨t, htail⟩ : ∃ t, level.tail = some t := by
    rw [← Option.ne_none_iff_exists', ne_eq, hlevel.chain.tail_eq_none_iff, List.map_eq_nil_iff]
    exact hlevel.nonempty
  have ht : t < arena.size := by
    have hmem : t ∈ queue.map Prod.fst := by
      apply List.mem_of_getLast?
      rw [← htail, hlevel.chain.tail_eq]
    obtain ⟨n, hn⟩ := hlevel.chain.exists_read hmem
    exact Heap.lt_size_of_read hn
  have hframe : ∀ q, q ≠ p → q ∉ queue.map Prod.fst →
      (Linked.pushBack arena level.tail p).read q = arena.read q := by
    intro q hq hmem
    apply read_pushBack_of_not_mem hlevel.chain.tail_eq
    rw [List.mem_append, List.mem_singleton, not_or]
    exact ⟨hmem, hq⟩
  refine ⟨⟨book.levels.put node.price ⟨level.head, some p, T.add level.totalQuantity node.quantity⟩⟩,
    Linked.pushBack arena level.tail p, bs ++ (queue ++ [(p, node.order)]) :: as,
    ?_, ?_, ?_, ?_, ?_, ?_⟩
  · simp [OrderBookSide.append, deref_eq hread, hfind, htail, ht,
      assign_eq (Heap.lt_size_of_read hread), assign_eq]
    rfl
  · rw [OrderedMap.put_split hentries]
    apply ladder_splice hbs has (hlevel.pushBack hread hactive rfl hqueue)
    intro slot hslot
    apply hframe _ _ (not_mem_level haddr slot hslot)
    intro heq
    apply hfresh
    rw [List.flatten_append, List.flatten_cons, ← heq]
    apply List.mem_map_of_mem
    rcases List.mem_append.mp hslot with hslot | hslot
    · exact List.mem_append_left _ hslot
    · exact List.mem_append_right _ (List.mem_append_right _ hslot)
  · have hsplit : ordersOf (bs ++ queue :: as) =
        (ordersOf bs ++ queue.map Prod.snd) ++ ordersOf as := by
      rw [ordersOf_append, ordersOf_cons, List.append_assoc]
    rw [hsplit, enqueue_append]
    · simp [ordersOf]
    · intro o ho
      rcases List.mem_append.mp ho with ho | ho
      · exact not_better_of_before hbs hbefore o ho
      · obtain ⟨slot, hslot, rfl⟩ := List.mem_map.mp ho
        rw [hlevel.price_eq slot hslot]
        exact OrderedMap.not_lt_self _ _
    · exact ladder_price has hafter
  · simp only [List.flatten_append, List.flatten_cons]
    have hperm : ((bs.flatten ++ queue) ++ (p, node.order) :: as.flatten).Perm
        ((p, node.order) :: ((bs.flatten ++ queue) ++ as.flatten)) := List.perm_middle
    simpa only [List.append_assoc, List.cons_append, List.nil_append] using hperm
  · intro q hq
    rw [List.mem_cons, not_or] at hq
    exact hframe q hq.1 fun hmem => hq.2 (mem_addresses hmem)
  · exact size_pushBack

/-- An order enters the ladder of its side behind every order that is not worse priced. -/
theorem append_spec (haddr : (levels.flatten.map Prod.fst).Nodup) :
    ∃ book' arena' levels', book.append T arena p = .ok (book', arena') ∧
      Appended T arena levels p node.order book' arena' levels' := by
  cases hfind : book.levels.find? node.price with
  | none => exact append_new hholds hread hactive hside hfresh hfind
  | some level => exact append_present hholds hread hactive hside hfresh haddr hfind

end Append

/-! ### Leaving -/

structure Detached (T : SignedInt) (arena : Heap OrderNode) (levels : List (List Slot)) (slot : Slot)
    (book' : OrderBookSide side) (arena' : Heap OrderNode) (levels' : List (List Slot)) : Prop where
  holds : List.Forall₂ (LevelHolds T arena') book'.levels.entries levels'
  split : ∃ xs ys, levels.flatten = xs ++ slot :: ys ∧ levels'.flatten = xs ++ ys
  frame : ∀ q ∉ levels.flatten.map Prod.fst, arena'.read q = arena.read q
  size_eq : arena'.size = arena.size

/-- A level with one of its orders out, if another is left. -/
theorem LevelHolds.unlink {entry : Int × PriceLevel} {slot : Slot} {xs ys : List Slot}
    (hlevel : LevelHolds T arena entry (xs ++ slot :: ys)) (hne : xs ++ ys ≠ []) :
    LevelHolds T
      (Linked.unlink arena (xs.map Prod.fst).getLast? (ys.map Prod.fst).head? slot.1)
      (entry.1, ⟨(xs.map Prod.fst ++ ys.map Prod.fst).head?,
        (xs.map Prod.fst ++ ys.map Prod.fst).getLast?,
        T.sub entry.2.totalQuantity slot.2.quantity⟩)
      (xs ++ ys) := by
  have hsub : ∀ slot' ∈ xs ++ ys, slot' ∈ xs ++ slot :: ys := by
    intro slot' hslot'
    rw [List.mem_append] at hslot' ⊢
    exact hslot'.imp_right (List.mem_cons_of_mem _)
  refine ⟨?_, hne, ?_, ?_, ?_⟩
  · have hchain := hlevel.chain
    rw [List.map_append, List.map_cons] at hchain
    rw [List.map_append]
    exact hchain.unlink
  · intro slot' hslot'
    rw [holds_unlink_iff]
    exact hlevel.holds slot' (hsub slot' hslot')
  · intro slot' hslot'
    exact hlevel.price_eq slot' (hsub slot' hslot')
  · simp only
    rw [hlevel.total_eq, SignedInt.sub, SignedInt.wrap_wrap_sub]
    congr 1
    simp
    omega

/-- Where an order stands in its ladder. -/
theorem exists_level_of_mem {slot : Slot}
    (hholds : List.Forall₂ (LevelHolds T arena) book.levels.entries levels)
    (hmem : slot ∈ levels.flatten) :
    ∃ before price level after bs xs ys as,
      book.levels.entries = before ++ (price, level) :: after ∧
      levels = bs ++ (xs ++ slot :: ys) :: as ∧
      List.Forall₂ (LevelHolds T arena) before bs ∧
      LevelHolds T arena (price, level) (xs ++ slot :: ys) ∧
      List.Forall₂ (LevelHolds T arena) after as := by
  obtain ⟨queue, hqueue, hslot⟩ := List.mem_flatten.mp hmem
  obtain ⟨bs, as, rfl⟩ := List.append_of_mem hqueue
  obtain ⟨xs, ys, rfl⟩ := List.append_of_mem hslot
  obtain ⟨before, ⟨price, level⟩, after, hentries, hbs, hlevel, has⟩ :=
    forall₂_split_left (List.Forall₂.flip (R := flip (LevelHolds T arena)) hholds)
  exact ⟨before, price, level, after, bs, xs, ys, as, hentries, rfl, hbs.flip, hlevel, has.flip⟩

/-- An order leaves the ladder, and with the last order of a level the level. -/
theorem detach_spec {slot : Slot}
    (hholds : List.Forall₂ (LevelHolds T arena) book.levels.entries levels)
    (haddr : (levels.flatten.map Prod.fst).Nodup) (hmem : slot ∈ levels.flatten) :
    ∃ book' arena' levels', book.detach T arena slot.1 = .ok (book', arena') ∧
      Detached T arena levels slot book' arena' levels' := by
  obtain ⟨before, price, level, after, bs, xs, ys, as, hentries, rfl, hbs, hlevel, has⟩ :=
    exists_level_of_mem hholds hmem
  have hslot : slot ∈ xs ++ slot :: ys := List.mem_append_right _ (List.mem_cons_self ..)
  obtain ⟨node, hread, -, horder⟩ := (hlevel.holds slot hslot).exists_node
  have hprice : node.price = price :=
    (congrArg RestingOrder.price horder).trans (hlevel.price_eq slot hslot)
  have hqty : node.quantity = slot.2.quantity := congrArg RestingOrder.quantity horder
  have hfind : book.levels.find? price = some level := OrderedMap.find?_split hentries
  have hchain := hlevel.chain
  rw [List.map_append, List.map_cons] at hchain
  have hunlink := unlinkFromLevel_eq
    (show IsChain arena (PriceLevel.mk level.head level.tail
      (T.sub level.totalQuantity slot.2.quantity)).head _ _ from hchain)
  have hframe : ∀ q ∉ (xs ++ slot :: ys).map Prod.fst,
      (Linked.unlink arena (xs.map Prod.fst).getLast? (ys.map Prod.fst).head? slot.1).read q
        = arena.read q := by
    intro q hq
    apply read_unlink_of_not_mem
    rwa [List.map_append, List.map_cons] at hq
  have hothers : ∀ s ∈ bs.flatten ++ as.flatten,
      (Linked.unlink arena (xs.map Prod.fst).getLast? (ys.map Prod.fst).head? slot.1).read s.1
        = arena.read s.1 := by
    intro s hs
    exact hframe _ (not_mem_level haddr s hs)
  have hframeAll : ∀ q ∉ (bs ++ (xs ++ slot :: ys) :: as).flatten.map Prod.fst,
      (Linked.unlink arena (xs.map Prod.fst).getLast? (ys.map Prod.fst).head? slot.1).read q
        = arena.read q := by
    intro q hq
    exact hframe q fun hmem => hq (mem_addresses hmem)
  have hflatten : (bs ++ (xs ++ slot :: ys) :: as).flatten
      = (bs.flatten ++ xs) ++ slot :: (ys ++ as.flatten) := by
    simp
  by_cases hempty : xs ++ ys = []
  · -- the last order of the level
    refine ⟨⟨book.levels.erase price⟩, _, bs ++ as, ?_, ?_, ⟨_, _, hflatten, ?_⟩, hframeAll, size_unlink⟩
    · have hhead : (xs.map Prod.fst ++ ys.map Prod.fst).head? = none := by
        rw [← List.map_append, hempty]
        rfl
      simp only [OrderBookSide.detach, deref_eq hread, ok_bind, hfind, hqty, hunlink, hhead, hprice,
        if_true]
      rfl
    · rw [OrderedMap.erase_split hentries]
      exact ladder_close hbs has hothers
    · obtain ⟨rfl, rfl⟩ := List.append_eq_nil_iff.mp hempty
      simp
  · refine ⟨⟨book.levels.put price
        ⟨(xs.map Prod.fst ++ ys.map Prod.fst).head?, (xs.map Prod.fst ++ ys.map Prod.fst).getLast?,
          T.sub level.totalQuantity slot.2.quantity⟩⟩,
      _, bs ++ (xs ++ ys) :: as, ?_, ?_, ⟨_, _, hflatten, ?_⟩, hframeAll, size_unlink⟩
    · have hhead : (xs.map Prod.fst ++ ys.map Prod.fst).head? ≠ none := by
        rw [← List.map_append, ne_eq, List.head?_eq_none_iff, List.map_eq_nil_iff]
        exact hempty
      simp only [OrderBookSide.detach, deref_eq hread, ok_bind, hfind, hqty, hunlink, hhead, hprice,
        if_false]
      rfl
    · rw [OrderedMap.put_split hentries]
      exact ladder_splice hbs has (hlevel.unlink hempty) hothers
    · simp

end MatchingEngine
