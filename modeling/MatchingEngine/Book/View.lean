import MatchingEngine.Book.Ladder

/-!
# Reading a book off its pointers

What an observer with access to the memory sees: each level's queue, by walking from the head along
the forward links, and the resting orders of a side, level after level. In a book that the pointers
represent these are the represented ones. A view is all of it together, with the addresses left out;
books that stand for the same queues look the same (`Represents.view_eq`).
-/

namespace MatchingEngine

open Divisible Linked

variable {T : SignedInt} {c : Clob} {levels : Side → List (List Slot)} {side : Side}

namespace Clob

/-- The nodes of a level, from its head. -/
def chain (c : Clob) (level : PriceLevel) : List Ptr := walk c.arena c.arena.size level.head

/-- The orders queued at a level, first come first. -/
def queue (c : Clob) (level : PriceLevel) : List RestingOrder :=
  ((c.chain level).filterMap c.arena.read).map OrderNode.order

/-- The resting orders of a side, best price first. -/
def restingOrders (c : Clob) (side : Side) : List RestingOrder :=
  (c.sideBook side).levels.entries.flatMap fun entry => c.queue entry.2

/-- All nodes that the ladder of a side reaches. -/
def linked (c : Clob) (side : Side) : List Ptr :=
  (c.sideBook side).levels.entries.flatMap fun entry => c.chain entry.2

end Clob

theorem LevelHolds.chain_eq {entry : Int × PriceLevel} {queue : List Slot}
    (h : LevelHolds T c.arena entry queue) : c.chain entry.2 = queue.map Prod.fst :=
  h.chain.walk_eq

theorem filterMap_read_eq {arena : Heap OrderNode} {slots : List Slot}
    (h : ∀ slot ∈ slots, Holds arena slot) :
    ((slots.map Prod.fst).filterMap arena.read).map OrderNode.order = slots.map Prod.snd := by
  induction slots with
  | nil => rfl
  | cons slot slots ih =>
    obtain ⟨node, hread, -, horder⟩ := (h slot (List.mem_cons_self ..)).exists_node
    rw [List.map_cons, List.filterMap_cons_some hread, List.map_cons, List.map_cons, horder,
      ih fun slot' hslot' => h slot' (List.mem_cons_of_mem _ hslot')]

theorem LevelHolds.queue_eq {entry : Int × PriceLevel} {queue : List Slot}
    (h : LevelHolds T c.arena entry queue) : c.queue entry.2 = queue.map Prod.snd := by
  rw [Clob.queue, h.chain_eq]
  exact filterMap_read_eq h.holds

theorem ladder_queues {entries : List (Int × PriceLevel)} {levels : List (List Slot)}
    (h : List.Forall₂ (LevelHolds T c.arena) entries levels) :
    entries.flatMap (fun entry => c.queue entry.2) = ordersOf levels ∧
      entries.flatMap (fun entry => c.chain entry.2) = levels.flatten.map Prod.fst := by
  induction h with
  | nil => exact ⟨rfl, rfl⟩
  | cons hlevel _ ih =>
    constructor
    · rw [List.flatMap_cons, ordersOf_cons, hlevel.queue_eq, ih.1]
    · rw [List.flatMap_cons, List.flatten_cons, List.map_append, hlevel.chain_eq, ih.2]

/-- The keys of a ladder are the prices of its orders. -/
theorem ladder_keys {entries : List (Int × PriceLevel)} {queues : List (List Slot)}
    (h : List.Forall₂ (LevelHolds T c.arena) entries queues) (price : Int) :
    price ∈ entries.map Prod.fst ↔ price ∈ (ordersOf queues).map RestingOrder.price := by
  induction h with
  | nil => simp [ordersOf]
  | @cons entry queue entries queues hlevel _ ih =>
    obtain ⟨slot, rest, hqueue⟩ := List.exists_cons_of_ne_nil hlevel.nonempty
    rw [List.map_cons, List.mem_cons, ih, ordersOf_cons, List.map_append, List.mem_append]
    apply or_congr_left
    constructor
    · intro heq
      rw [hqueue, heq, ← hlevel.price_eq slot (hqueue ▸ List.mem_cons_self ..)]
      exact List.mem_cons_self ..
    · intro hmem
      obtain ⟨o, ho, rfl⟩ := List.mem_map.mp hmem
      obtain ⟨slot', hslot', rfl⟩ := List.mem_map.mp ho
      exact hlevel.price_eq slot' hslot'

theorem ladder_entry {entries : List (Int × PriceLevel)} {queues : List (List Slot)}
    (h : List.Forall₂ (LevelHolds T c.arena) entries queues) {entry : Int × PriceLevel}
    (hentry : entry ∈ entries) : ∃ queue ∈ queues, LevelHolds T c.arena entry queue := by
  induction h with
  | nil => simp at hentry
  | cons hlevel _ ih =>
    rcases List.mem_cons.mp hentry with rfl | hentry
    · exact ⟨_, List.mem_cons_self .., hlevel⟩
    · obtain ⟨queue, hqueue, hholds⟩ := ih hentry
      exact ⟨queue, List.mem_cons_of_mem _ hqueue, hholds⟩

namespace Represents

theorem restingOrders_eq (h : Represents T c levels) (side : Side) :
    c.restingOrders side = bookOf levels side :=
  (ladder_queues (h.sides side)).1

theorem linked_eq (h : Represents T c levels) (side : Side) :
    c.linked side = (levels side).flatten.map Prod.fst :=
  (ladder_queues (h.sides side)).2

theorem exists_order_at_best (h : Represents T c levels) {price : Int} {level : PriceLevel}
    (hbest : (c.sideBook side).bestLevel = some (price, level)) :
    ∃ o ∈ bookOf levels side, o.price = price := by
  have hmem : (price, level) ∈ (c.sideBook side).levels.entries := List.mem_of_head? hbest
  have hkey := (ladder_keys (h.sides side) price).mp (List.mem_map_of_mem hmem)
  exact List.mem_map.mp hkey

end Represents

/-! ### Views -/

/-- A book without its addresses: the price, the cached total and the queue of each level, best level
first, and the order that the lookup has for an id. -/
structure BookView where
  levels : Side → List (Int × Int × List RestingOrder)
  lookup : Int → Option RestingOrder

namespace Clob

def levelView (c : Clob) (entry : Int × PriceLevel) : Int × Int × List RestingOrder :=
  (entry.1, entry.2.totalQuantity, c.queue entry.2)

def view (c : Clob) : BookView where
  levels side := (c.sideBook side).levels.entries.map c.levelView
  lookup orderId := ((c.lookup orderId).bind c.arena.read).map OrderNode.order

end Clob

/-- A level is the part of the ladder at its price. -/
theorem LevelHolds.filter_eq {arena : Heap OrderNode} {entry : Int × PriceLevel} {queue : List Slot}
    (h : LevelHolds T arena entry queue) {os : List RestingOrder} (hos : ∀ o ∈ os, o.price ≠ entry.1) :
    (queue.map Prod.snd ++ os).filter (fun o => o.price = entry.1) = queue.map Prod.snd := by
  have hqueue : (queue.map Prod.snd).filter (fun o => o.price = entry.1) = queue.map Prod.snd := by
    apply List.filter_eq_self.mpr
    intro o ho
    obtain ⟨slot, hslot, rfl⟩ := List.mem_map.mp ho
    simpa using h.price_eq slot hslot
  have hrest : os.filter (fun o => o.price = entry.1) = [] := by
    apply List.filter_eq_nil_iff.mpr
    intro o ho
    simpa using hos o ho
  rw [List.filter_append, hqueue, hrest, List.append_nil]

theorem LevelHolds.exists_order {arena : Heap OrderNode} {entry : Int × PriceLevel} {queue : List Slot}
    (h : LevelHolds T arena entry queue) :
    ∃ o os, queue.map Prod.snd = o :: os ∧ o.price = entry.1 := by
  obtain ⟨slot, rest, rfl⟩ := List.exists_cons_of_ne_nil h.nonempty
  exact ⟨slot.2, rest.map Prod.snd, rfl, h.price_eq slot (List.mem_cons_self ..)⟩

/-- How the orders of a side are grouped into levels can be told from their prices. -/
theorem ladder_view {c' : Clob} {entries entries' : List (Int × PriceLevel)}
    {queues queues' : List (List Slot)} (h : List.Forall₂ (LevelHolds T c.arena) entries queues)
    (h' : List.Forall₂ (LevelHolds T c'.arena) entries' queues')
    (hkeys : (entries.map Prod.fst).Nodup) (hkeys' : (entries'.map Prod.fst).Nodup)
    (heq : ordersOf queues = ordersOf queues') :
    entries.map c.levelView = entries'.map c'.levelView := by
  induction h generalizing entries' queues' with
  | nil =>
    cases h' with
    | nil => rfl
    | cons hlevel' _ =>
      obtain ⟨o, os, hqueue', -⟩ := hlevel'.exists_order
      rw [ordersOf_cons, hqueue'] at heq
      cases heq
  | @cons entry queue entries queues hlevel hrest ih =>
    obtain ⟨o, os, hqueue, ho⟩ := hlevel.exists_order
    cases h' with
    | nil =>
      rw [ordersOf_cons, hqueue] at heq
      cases heq
    | @cons entry' queue' entries' queues' hlevel' hrest' =>
      obtain ⟨o', os', hqueue', ho'⟩ := hlevel'.exists_order
      rw [List.map_cons, List.nodup_cons] at hkeys hkeys'
      have hprices : ∀ p ∈ ordersOf queues, p.price ≠ entry.1 :=
        ladder_price (P := fun price => price ≠ entry.1) hrest fun e he heq =>
          hkeys.1 (heq ▸ List.mem_map_of_mem he)
      have hprices' : ∀ p ∈ ordersOf queues', p.price ≠ entry'.1 :=
        ladder_price (P := fun price => price ≠ entry'.1) hrest' fun e he heq =>
          hkeys'.1 (heq ▸ List.mem_map_of_mem he)
      rw [ordersOf_cons, ordersOf_cons] at heq
      have hprice : entry.1 = entry'.1 := by
        rw [hqueue, hqueue', List.cons_append, List.cons_append] at heq
        rw [← ho, ← ho', (List.cons.inj heq).1]
      have hsame : queue.map Prod.snd = queue'.map Prod.snd := by
        rw [← hlevel.filter_eq hprices, heq, hprice, hlevel'.filter_eq hprices']
      have hview : c.levelView entry = c'.levelView entry' := by
        simp only [Clob.levelView, hprice, hlevel.total_eq, hlevel'.total_eq, hlevel.queue_eq,
          hlevel'.queue_eq, hsame]
      rw [hsame] at heq
      rw [List.map_cons, List.map_cons, hview, ih hrest' hkeys.2 hkeys'.2 (List.append_cancel_left heq)]

namespace Represents

/-- The lookup finds the orders of the book by their ids. -/
theorem lookup_view (h : Represents T c levels) (orderId : Int) :
    c.view.lookup orderId = (bookOf levels).find? orderId := by
  have hview : c.view.lookup orderId =
      ((c.lookup orderId).bind c.arena.read).map OrderNode.order := rfl
  rw [hview]
  cases hlookup : c.lookup orderId with
  | none =>
    rw [h.find?_eq_none hlookup]
    rfl
  | some p =>
    obtain ⟨side, slot, hside, rfl, -, hfind⟩ := h.slot_of_lookup hlookup
    obtain ⟨node, hread, -, horder⟩ := (ladder_holds (h.sides side) slot hside).exists_node
    rw [hfind, ← horder]
    exact congrArg (Option.map OrderNode.order) hread

/-- **Books that stand for the same queues look the same.** -/
theorem view_eq {c' : Clob} {levels' : Side → List (List Slot)} (h : Represents T c levels)
    (h' : Represents T c' levels') (hbook : bookOf levels = bookOf levels') : c.view = c'.view := by
  have hlevels : c.view.levels = c'.view.levels := by
    funext side
    exact ladder_view (h.sides side) (h'.sides side) (c.sideBook side).levels.keys_nodup
      (c'.sideBook side).levels.keys_nodup (congrFun hbook side)
  have hlookup : c.view.lookup = c'.view.lookup := by
    funext orderId
    rw [h.lookup_view, h'.lookup_view, hbook]
  exact congrArg₂ BookView.mk hlevels hlookup

end Represents

end MatchingEngine
