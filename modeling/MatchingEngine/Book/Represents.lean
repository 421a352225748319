import MatchingEngine.Book.Priority

/-!
# How the pointers represent a book

A slot is an address together with the order that lives there. A level of the ladder represents a
nonempty queue of slots: the level's list runs through their addresses, each node is active and holds
its order at the level's price, and the cached total is the exact sum reduced into the integer type.
`Represents` puts the levels of both sides together with the lookup; the book it stands for is the
concatenation of the levels' orders.

The rest of the module is what the primitive operations on nodes do in these terms.
-/

namespace MatchingEngine

open Divisible Linked

/-- The order a node holds. -/
def OrderNode.order (node : OrderNode) : RestingOrder :=
  ⟨node.orderId, node.side, node.price, node.quantity⟩

abbrev Slot := Ptr × RestingOrder

def Holds (arena : Heap OrderNode) (slot : Slot) : Prop :=
  (arena.read slot.1).map (fun node => (node.active, node.order)) = some (true, slot.2)

/-- The lookup takes the id of each slot's order to its address, and nothing else anywhere. -/
def LooksUp (lookup : Int → Option Ptr) (slots : List Slot) : Prop :=
  ∀ orderId p, lookup orderId = some p ↔ ∃ slot ∈ slots, slot.1 = p ∧ slot.2.orderId = orderId

/-- A ladder entry represents a queue of slots. -/
structure LevelHolds (T : SignedInt) (arena : Heap OrderNode) (entry : Int × PriceLevel)
    (queue : List Slot) : Prop where
  chain : IsChain arena entry.2.head entry.2.tail (queue.map Prod.fst)
  nonempty : queue ≠ []
  holds : ∀ slot ∈ queue, Holds arena slot
  price_eq : ∀ slot ∈ queue, slot.2.price = entry.1
  total_eq : entry.2.totalQuantity = T.wrap (total (queue.map Prod.snd))

/-- The slots of both sides, given the queues of the levels of each. -/
def allSlots (levels : Side → List (List Slot)) : List Slot :=
  (levels .buy).flatten ++ (levels .sell).flatten

def ordersOf (levels : List (List Slot)) : List RestingOrder := levels.flatten.map Prod.snd

/-- The book that the queues of the levels stand for. -/
def bookOf (levels : Side → List (List Slot)) : PriorityBook := fun side => ordersOf (levels side)

structure Represents (T : SignedInt) (c : Clob) (levels : Side → List (List Slot)) : Prop where
  sides : ∀ side, List.Forall₂ (LevelHolds T c.arena) (c.sideBook side).levels.entries (levels side)
  lookup : LooksUp c.lookup (allSlots levels)
  fits : ∀ side, ∀ slot ∈ (levels side).flatten, T.Fits slot.2.quantity
  valid : (bookOf levels).Valid

/-! ### Slots -/

section Slots

variable {T : SignedInt} {arena arena' : Heap OrderNode} {slot slot' : Slot} {p q : Ptr}

theorem Holds.exists_node (h : Holds arena slot) :
    ∃ node, arena.read slot.1 = some node ∧ node.active = true ∧ node.order = slot.2 := by
  obtain ⟨node, hread, heq⟩ := Option.map_eq_some_iff.mp h
  exact ⟨node, hread, congrArg Prod.fst heq, congrArg Prod.snd heq⟩

theorem holds_of_read {node : OrderNode} (hread : arena.read p = some node)
    (hactive : node.active = true) : Holds arena (p, node.order) := by
  simp [Holds, hread, hactive]

/-- One address holds one order. -/
theorem Holds.unique (h : Holds arena slot) (h' : Holds arena slot') (heq : slot.1 = slot'.1) :
    slot = slot' := by
  have horder : some (true, slot.2) = some (true, slot'.2) := h.symm.trans (heq ▸ h')
  simp only [Option.some.injEq, Prod.mk.injEq, true_and] at horder
  exact Prod.ext heq horder

theorem Holds.congr (h : Holds arena slot) (heq : arena'.read slot.1 = arena.read slot.1) :
    Holds arena' slot := by
  rw [Holds, heq]
  exact h

theorem Holds.lt_size (h : Holds arena slot) : slot.1 < arena.size := by
  obtain ⟨node, hread, -⟩ := h.exists_node
  exact Heap.lt_size_of_read hread

theorem holds_unlink_iff {before after : Option Ptr} :
    Holds (unlink arena before after p) slot ↔ Holds arena slot := by
  rw [Holds, map_read_unlink (fun _ _ => rfl) (fun _ _ => rfl), Holds]

theorem holds_pushBack_iff {tail : Option Ptr} :
    Holds (pushBack arena tail p) slot ↔ Holds arena slot := by
  rw [Holds, map_read_pushBack (fun _ _ => rfl) (fun _ _ => rfl), Holds]

theorem LevelHolds.congr {entry : Int × PriceLevel} {queue : List Slot}
    (h : LevelHolds T arena entry queue)
    (heq : ∀ slot ∈ queue, arena'.read slot.1 = arena.read slot.1) :
    LevelHolds T arena' entry queue where
  chain := h.chain.congr fun p hp => by
    obtain ⟨slot, hslot, rfl⟩ := List.mem_map.mp hp
    rw [links, heq slot hslot, links]
  nonempty := h.nonempty
  holds slot hslot := (h.holds slot hslot).congr (heq slot hslot)
  price_eq := h.price_eq
  total_eq := h.total_eq

theorem ladder_congr {entries : List (Int × PriceLevel)} {levels : List (List Slot)}
    (h : List.Forall₂ (LevelHolds T arena) entries levels)
    (heq : ∀ slot ∈ levels.flatten, arena'.read slot.1 = arena.read slot.1) :
    List.Forall₂ (LevelHolds T arena') entries levels := by
  induction h with
  | nil => exact List.Forall₂.nil
  | cons hlevel _ ih =>
    refine List.Forall₂.cons (hlevel.congr fun slot hslot => ?_) (ih fun slot hslot => ?_)
    · exact heq slot (List.mem_append_left _ hslot)
    · exact heq slot (List.mem_append_right _ hslot)

theorem ladder_holds {entries : List (Int × PriceLevel)} {levels : List (List Slot)}
    (h : List.Forall₂ (LevelHolds T arena) entries levels) :
    ∀ slot ∈ levels.flatten, Holds arena slot := by
  induction h with
  | nil => simp
  | cons hlevel _ ih =>
    intro slot hslot
    rcases List.mem_append.mp hslot with hslot | hslot
    · exact hlevel.holds slot hslot
    · exact ih slot hslot

end Slots

theorem mem_allSlots {levels : Side → List (List Slot)} {slot : Slot} :
    slot ∈ allSlots levels ↔ ∃ side, slot ∈ (levels side).flatten := by
  simp only [allSlots, List.mem_append]
  constructor
  · intro h
    rcases h with h | h
    · exact ⟨.buy, h⟩
    · exact ⟨.sell, h⟩
  · intro ⟨side, h⟩
    cases side
    · exact Or.inl h
    · exact Or.inr h

theorem ordersOf_cons (queue : List Slot) (levels : List (List Slot)) :
    ordersOf (queue :: levels) = queue.map Prod.snd ++ ordersOf levels := by
  simp [ordersOf]

theorem ordersOf_append (as bs : List (List Slot)) :
    ordersOf (as ++ bs) = ordersOf as ++ ordersOf bs := by
  simp [ordersOf]

theorem allSlots_map_snd (levels : Side → List (List Slot)) :
    (allSlots levels).map Prod.snd = (bookOf levels).orders := by
  simp [allSlots, bookOf, ordersOf, PriorityBook.orders]

theorem allSlots_perm (levels : Side → List (List Slot)) (side : Side) :
    (allSlots levels).Perm ((levels side).flatten ++ (levels side.opposite).flatten) := by
  cases side
  · exact List.Perm.refl _
  · exact List.perm_append_comm

/-! ### The lookup -/

section Lookup

variable {lookup : Int → Option Ptr} {slots slots' : List Slot} {slot : Slot} {orderId : Int}

theorem LooksUp.perm (h : LooksUp lookup slots) (hperm : slots.Perm slots') :
    LooksUp lookup slots' := by
  intro orderId p
  simp only [h orderId p, hperm.mem_iff]

theorem LooksUp.eq_none_iff (h : LooksUp lookup slots) :
    lookup orderId = none ↔ orderId ∉ slots.map fun slot => slot.2.orderId := by
  rw [← not_iff_not, not_not, ← ne_eq, Option.ne_none_iff_exists']
  simp only [h orderId, List.mem_map]
  constructor
  · intro ⟨p, slot, hmem, _, hid⟩
    exact ⟨slot, hmem, hid⟩
  · intro ⟨slot, hmem, hid⟩
    exact ⟨slot.1, slot, hmem, rfl, hid⟩

/-- Erasing the id of a slot's order takes out that slot. -/
theorem LooksUp.erase (h : LooksUp lookup (slot :: slots))
    (hfresh : slot.2.orderId ∉ slots.map fun slot => slot.2.orderId) :
    LooksUp (Function.update lookup slot.2.orderId none) slots := by
  intro orderId p
  by_cases heq : orderId = slot.2.orderId
  · subst heq
    rw [Function.update_self]
    simp only [reduceCtorEq, false_iff]
    intro ⟨slot', hmem, _, hid⟩
    exact hfresh (List.mem_map.mpr ⟨slot', hmem, hid⟩)
  · rw [Function.update_of_ne heq, h]
    simp only [List.mem_cons, exists_eq_or_imp]
    exact ⟨fun hor => hor.resolve_left fun hslot => heq hslot.2.symm, Or.inr⟩

/-- Entering an absent id adds a slot. -/
theorem LooksUp.insert (h : LooksUp lookup slots) (hnone : lookup slot.2.orderId = none) :
    LooksUp (Function.update lookup slot.2.orderId (some slot.1)) (slot :: slots) := by
  intro orderId p
  by_cases heq : orderId = slot.2.orderId
  · subst heq
    rw [Function.update_self]
    simp only [Option.some.injEq, List.mem_cons, exists_eq_or_imp, and_true]
    constructor
    · exact Or.inl
    · intro hor
      rcases hor with hp | ⟨slot', hmem, _, hid⟩
      · exact hp
      · exact absurd (List.mem_map.mpr ⟨slot', hmem, hid⟩) (h.eq_none_iff.mp hnone)
  · rw [Function.update_of_ne heq, h]
    simp only [List.mem_cons, exists_eq_or_imp]
    exact ⟨Or.inr, fun hor => hor.resolve_left fun hslot => heq hslot.2.symm⟩

end Lookup

namespace Represents

variable {T : SignedInt} {c : Clob} {levels : Side → List (List Slot)} {orderId : Int}

theorem find?_eq_none (h : Represents T c levels) (hlookup : c.lookup orderId = none) :
    (bookOf levels).find? orderId = none := by
  have hnone := h.lookup.eq_none_iff.mp hlookup
  apply List.find?_eq_none.mpr
  intro o ho heq
  rw [← allSlots_map_snd] at ho
  obtain ⟨slot, hslot, rfl⟩ := List.mem_map.mp ho
  exact hnone (List.mem_map.mpr ⟨slot, hslot, by simpa using heq⟩)

/-- What the lookup leads to is the order of the book with that id. -/
theorem slot_of_lookup (h : Represents T c levels) {p : Ptr} (hlookup : c.lookup orderId = some p) :
    ∃ side, ∃ slot ∈ (levels side).flatten, slot.1 = p ∧ slot.2.orderId = orderId ∧
      (bookOf levels).find? orderId = some slot.2 := by
  obtain ⟨slot, hslot, hp, hid⟩ := (h.lookup orderId p).mp hlookup
  obtain ⟨side, hside⟩ := mem_allSlots.mp hslot
  refine ⟨side, slot, hside, hp, hid, ?_⟩
  rw [h.valid.find?_eq_some_iff, ← allSlots_map_snd]
  exact ⟨List.mem_map_of_mem hslot, hid⟩

end Represents

/-! ### Reads and writes through pointers -/

@[simp] theorem ok_bind {α β : Type} (a : α) (f : α → Except Fault β) :
    (Except.ok a >>= f) = f a := rfl

@[simp] theorem map_ok {α β : Type} (f : α → β) (a : α) :
    Except.map f (.ok a : Except Fault α) = .ok (f a) := rfl

/-- A computation has one result. -/
theorem ok_unique {α β : Type} {r : Except Fault (α × β)} {a a' : α} {b b' : β}
    (h : r = .ok (a, b)) (h' : r = .ok (a', b')) : a = a' ∧ b = b' :=
  Prod.mk.inj (Except.ok.inj (h.symm.trans h'))

section Pointers

variable {arena : Heap OrderNode} {p : Ptr} {node : OrderNode} {level : PriceLevel}
  {as bs : List Ptr}

theorem deref_eq (hread : arena.read p = some node) : deref arena p = .ok node := by
  rw [deref, hread]

theorem assign_eq (hp : p < arena.size) (f : OrderNode → OrderNode) :
    assign arena p f = .ok (arena.modify p f) := by
  rw [assign, Heap.read, List.getElem?_eq_getElem hp]

/-- Taking a node out of a level's list. -/
theorem unlinkFromLevel_eq (hchain : IsChain arena level.head level.tail (as ++ p :: bs)) :
    unlinkFromLevel level arena p =
      .ok ({ level with head := (as ++ bs).head?, tail := (as ++ bs).getLast? },
        unlink arena as.getLast? bs.head? p) := by
  obtain ⟨node, hread, hlinks⟩ := Option.map_eq_some_iff.mp hchain.links_split
  obtain ⟨hprev, hnext⟩ := Prod.mk.inj hlinks
  change node.prevSamePrice = as.getLast? at hprev
  change node.nextSamePrice = bs.head? at hnext
  have hp : p < arena.size := Heap.lt_size_of_read hread
  have hhead : level.head = (as ++ p :: bs).head? := hchain.head_eq
  have htail : level.tail = (as ++ p :: bs).getLast? := hchain.tail_eq
  have hlast : ∀ r, as.getLast? = some r → r < arena.size := by
    intro r hr
    obtain ⟨a, ha⟩ := hchain.exists_read (List.mem_append_left _ (List.mem_of_getLast? hr))
    exact Heap.lt_size_of_read ha
  have hfirst : ∀ r, bs.head? = some r → r < arena.size := by
    intro r hr
    obtain ⟨a, ha⟩ := hchain.exists_read
      (List.mem_append_right _ (List.mem_cons_of_mem _ (List.mem_of_head? hr)))
    exact Heap.lt_size_of_read ha
  simp only [unlinkFromLevel, deref_eq hread, ok_bind, hprev, hnext, unlink]
  -- each end of the level moves exactly when the node has no neighbour on that side
  rcases List.eq_nil_or_concat as with rfl | ⟨as, l, rfl⟩
  · cases bs with
    | nil =>
      simp [assign_eq, hp]
      rfl
    | cons r bs =>
      simp [assign_eq, hp, hfirst r rfl, htail]
      rfl
  · cases bs with
    | nil =>
      simp [assign_eq, hp, hlast, hhead]
      rfl
    | cons r bs =>
      simp [assign_eq, hp, hlast, hfirst r rfl]
      refine ⟨?_, rfl⟩
      cases level
      simpa using And.intro hhead htail

end Pointers

end MatchingEngine
