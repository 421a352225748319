import Mathlib.Data.List.Dedup
import MatchingEngine.Book.LevelTotals

/-!
# The representation invariant

What holds of the memory of a book after every input, said of the pointers alone. It holds in every
integer type, whatever the totals of the levels may have wrapped to; over exact integers these are the
sums of their queues besides.
-/

namespace MatchingEngine

open Divisible Linked PriorityBook

namespace Clob

/-- A ladder entry of a side is a nonempty list of active orders at its price. -/
structure LevelWellFormed (c : Clob) (side : Side) (entry : Int × PriceLevel) : Prop where
  nonempty : c.chain entry.2 ≠ []
  isChain : IsChain c.arena entry.2.head entry.2.tail (c.chain entry.2)
  nodes : ∀ p ∈ c.chain entry.2, ∃ node, c.arena.read p = some node ∧ node.price = entry.1 ∧
    node.side = side ∧ node.active = true ∧ 0 < node.orderId ∧ 0 < node.price ∧ 0 < node.quantity

/-- What a ladder or the lookup leads to. -/
def Reachable (c : Clob) (p : Ptr) : Prop :=
  (∃ side, p ∈ c.linked side) ∨ ∃ orderId, c.lookup orderId = some p

structure WellFormed (c : Clob) : Prop where
  levels : ∀ side, ∀ entry ∈ (c.sideBook side).levels.entries, c.LevelWellFormed side entry
  disjoint : (c.linked .buy ++ c.linked .sell).Nodup
  lookup_iff : ∀ orderId p, c.lookup orderId = some p ↔
    (∃ side, p ∈ c.linked side) ∧ (c.arena.read p).map OrderNode.orderId = some orderId
  nodup : ((c.restingOrders .buy ++ c.restingOrders .sell).map RestingOrder.orderId).Nodup
  bidDepth_eq : c.bidDepth = ((c.restingOrders .buy).map RestingOrder.price).dedup.length
  askDepth_eq : c.askDepth = ((c.restingOrders .sell).map RestingOrder.price).dedup.length

end Clob

variable {T : SignedInt} {c : Clob} {levels : Side → List (List Slot)} {side : Side}

namespace Represents

theorem depth_eq (h : Represents T c levels) (side : Side) :
    (c.sideBook side).depth = ((bookOf levels side).map RestingOrder.price).dedup.length := by
  have hperm : ((c.sideBook side).levels.entries.map Prod.fst).Perm
      ((bookOf levels side).map RestingOrder.price).dedup := by
    apply (List.perm_ext_iff_of_nodup (c.sideBook side).levels.keys_nodup
      (List.nodup_dedup _)).mpr
    intro price
    rw [List.mem_dedup]
    exact ladder_keys (h.sides side) price
  rw [← hperm.length_eq, List.length_map]
  rfl

theorem mem_linked_iff (h : Represents T c levels) {p : Ptr} :
    (∃ side, p ∈ c.linked side) ↔ ∃ slot ∈ allSlots levels, slot.1 = p := by
  constructor
  · intro ⟨side, hp⟩
    rw [h.linked_eq] at hp
    obtain ⟨slot, hslot, heq⟩ := List.mem_map.mp hp
    exact ⟨slot, mem_allSlots.mpr ⟨side, hslot⟩, heq⟩
  · intro ⟨slot, hslot, heq⟩
    obtain ⟨side, hside⟩ := mem_allSlots.mp hslot
    refine ⟨side, ?_⟩
    rw [h.linked_eq, ← heq]
    exact List.mem_map_of_mem hside

/-- The lookup leads nowhere that the ladders do not. -/
theorem reachable_iff (h : Represents T c levels) {p : Ptr} :
    c.Reachable p ↔ ∃ side, p ∈ (levels side).flatten.map Prod.fst := by
  have hlinked : (∃ side, p ∈ c.linked side) ↔ ∃ side, p ∈ (levels side).flatten.map Prod.fst := by
    simp only [h.linked_eq]
  rw [Clob.Reachable, hlinked, or_iff_left_iff_imp]
  intro ⟨orderId, hlookup⟩
  obtain ⟨slot, hslot, heq, -⟩ := (h.lookup orderId p).mp hlookup
  exact hlinked.mp (h.mem_linked_iff.mpr ⟨slot, hslot, heq⟩)

theorem levelWellFormed (h : Represents T c levels) {entry : Int × PriceLevel}
    (hentry : entry ∈ (c.sideBook side).levels.entries) : c.LevelWellFormed side entry := by
  obtain ⟨queue, hqueue, hlevel⟩ := ladder_entry (h.sides side) hentry
  refine ⟨?_, ?_, ?_⟩
  · rw [hlevel.chain_eq, ne_eq, List.map_eq_nil_iff]
    exact hlevel.nonempty
  · rw [hlevel.chain_eq]
    exact hlevel.chain
  · intro p hp
    rw [hlevel.chain_eq] at hp
    obtain ⟨slot, hslot, rfl⟩ := List.mem_map.mp hp
    obtain ⟨node, hread, hactive, horder⟩ := (hlevel.holds slot hslot).exists_node
    have hmem : node.order ∈ bookOf levels side :=
      horder ▸ List.mem_map_of_mem (List.mem_flatten.mpr ⟨queue, hqueue, hslot⟩)
    refine ⟨node, hread, ?_, h.valid.side_eq side _ hmem, hactive, h.valid.orderId_pos side _ hmem,
      h.valid.price_pos side _ hmem, h.valid.positive side _ hmem⟩
    rw [← hlevel.price_eq slot hslot, ← horder]
    rfl

theorem wellFormed (h : Represents T c levels) : c.WellFormed := by
  refine ⟨fun side entry hentry => h.levelWellFormed hentry, ?_, ?_, ?_, ?_, ?_⟩
  · rw [h.linked_eq, h.linked_eq, ← List.map_append]
    exact h.addresses .buy
  · intro orderId p
    rw [h.lookup orderId p, h.mem_linked_iff]
    constructor
    · intro ⟨slot, hslot, heq, hid⟩
      obtain ⟨side, hside⟩ := mem_allSlots.mp hslot
      obtain ⟨node, hread, -, horder⟩ := (h.holds hside).exists_node
      rw [← heq, hread, Option.map_some, ← hid, ← horder]
      exact ⟨⟨slot, hslot, rfl⟩, rfl⟩
    · intro ⟨⟨slot, hslot, heq⟩, hread⟩
      obtain ⟨side, hside⟩ := mem_allSlots.mp hslot
      obtain ⟨node, hnode, -, horder⟩ := (h.holds hside).exists_node
      rw [← heq, hnode, Option.map_some, Option.some.injEq] at hread
      refine ⟨slot, hslot, heq, ?_⟩
      rw [← hread, ← horder]
      rfl
  · rw [h.restingOrders_eq, h.restingOrders_eq]
    exact h.valid.nodup
  · rw [h.restingOrders_eq]
    exact h.depth_eq .buy
  · rw [h.restingOrders_eq]
    exact h.depth_eq .sell

/-- Every cached total is the sum of its queue, reduced into the type. -/
theorem totalQuantity_eq (h : Represents T c levels) {entry : Int × PriceLevel}
    (hentry : entry ∈ (c.sideBook side).levels.entries) :
    entry.2.totalQuantity = T.wrap ((c.queue entry.2).map RestingOrder.quantity).sum := by
  obtain ⟨hsum, htotal⟩ := h.queued_eq hentry
  rw [htotal, hsum]

end Represents

/-- **The representation invariant holds after every run, and what has left the book stays out.** Over
exact integers the cached totals are exact with it. -/
theorem run_wellFormed (before after : List InputEvent) (hfits : ∀ e ∈ before ++ after, e.Fits T) :
    ∃ c₀ emitted₀ c emitted, Clob.run T {} before = .ok (c₀, emitted₀) ∧
      c₀.run T after = .ok (c, emitted) ∧ c.WellFormed ∧ (T = .unbounded → c.TotalsExact) ∧
      ∀ p < c₀.arena.size, ¬ c₀.Reachable p → ¬ c.Reachable p := by
  obtain ⟨hbefore, hafter⟩ := List.forall_mem_append.mp hfits
  obtain ⟨c₀, emitted₀, levels₀, hrun₀, hc₀⟩ := run_represents before hbefore
  obtain ⟨c, emitted, levels, hrun, hbecomes⟩ := hc₀.run after hafter
  refine ⟨c₀, emitted₀, c, emitted, hrun₀, hrun, hbecomes.represents.wellFormed, ?_, ?_⟩
  · rintro rfl side entry hentry
    exact hbecomes.represents.totalQuantity_eq hentry
  · intro p hp hout hin
    apply hout
    obtain ⟨side, hside⟩ := hbecomes.represents.reachable_iff.mp hin
    exact hc₀.reachable_iff.mpr ⟨side, hbecomes.linked side p hside hp⟩

/-- The first order is cancelled out of the middle of a run, and its node stays out. -/
theorem run_wellFormed_cancelled :
    ∃ c₀ emitted₀ c emitted, Clob.run .int64 {} [.addOrder ⟨1, .buy, 5, 100, .gtc⟩,
        .addOrder ⟨2, .buy, 7, 100, .gtc⟩, .cancelOrder ⟨1⟩] = .ok (c₀, emitted₀) ∧
      c₀.run .int64 [.addOrder ⟨1, .sell, 9, 100, .gtc⟩] = .ok (c, emitted) ∧ c.WellFormed ∧
      (SignedInt.int64 = .unbounded → c.TotalsExact) ∧
      ∀ p < c₀.arena.size, ¬ c₀.Reachable p → ¬ c.Reachable p :=
  run_wellFormed _ _ (by decide +kernel)

/-- **The book is never crossed**: of two orders that rest on different sides the buyer pays less than
the seller asks, and so the best levels of the sides are apart. -/
theorem run_uncrossed (events : List InputEvent) :
    ∃ c emitted, Clob.run .unbounded {} events = .ok (c, emitted) ∧
      (∀ bid ask, c.bids.bestLevel = some bid → c.asks.bestLevel = some ask → bid.1 < ask.1) ∧
      (∀ bid ∈ c.restingOrders .buy, ∀ ask ∈ c.restingOrders .sell, bid.price < ask.price) ∧
      ∀ side, c.restingOrders side ≠ [] → ∃ best, (c.sideBook side).bestLevel = some best := by
  obtain ⟨c, emitted, levels, hrun, hc⟩ := run_represents events fun e _ => e.fits_unbounded
  have huncrossed : ∀ bid ∈ bookOf levels .buy, ∀ ask ∈ bookOf levels .sell, bid.price < ask.price := by
    intro bid hbid ask hask
    have hnot := hc.valid.uncrossed .buy bid hbid ask hask
    simp only [Side.opposite, Crosses, RestingLevelsCompare, not_not] at hnot
    omega
  refine ⟨c, emitted, hrun, ?_, ?_, ?_⟩
  · intro bid ask hbid hask
    obtain ⟨o, ho, hoPrice⟩ := hc.exists_order_at_best hbid
    obtain ⟨p, hp, hpPrice⟩ := hc.exists_order_at_best hask
    rw [← hoPrice, ← hpPrice]
    exact huncrossed o ho p hp
  · rw [hc.restingOrders_eq, hc.restingOrders_eq]
    exact huncrossed
  · intro side hne
    obtain ⟨o, ho⟩ := List.exists_mem_of_ne_nil _ hne
    obtain ⟨entry, hentry, -⟩ := List.mem_flatMap.mp ho
    exact Option.isSome_iff_exists.mp (List.isSome_head?.mpr (List.ne_nil_of_mem hentry))

end MatchingEngine
