import Mathlib.Algebra.Order.BigOperators.Group.List
import MatchingEngine.Book.Run

/-!
# The fill-or-kill probe

The probe adds up cached totals instead of walking orders. As long as the whole side sums to a value
of the integer type, what it adds up is what the limit crosses, capped at what is needed. The cap
does not keep the sum in the type by itself: it is compared with after a total has been added, and a
sum just below it and a large total together are out of range. `fillableQuantity_iff` says what that
does to the result.
-/

namespace MatchingEngine

open Divisible PriorityBook

variable {T : SignedInt} {c : Clob} {levels : Side → List (List Slot)}

theorem fillableFrom_eq {arena : Heap OrderNode} {side : Side} {limit need available : Int}
    {entries : List (Int × PriceLevel)} {queues : List (List Slot)}
    (hholds : List.Forall₂ (LevelHolds T arena) entries queues)
    (hranked : Ranked side (ordersOf queues)) (hpositive : Positive (ordersOf queues))
    (hfits : T.Fits (available + total (ordersOf queues))) (hnonneg : 0 ≤ available)
    (hneed : available < need) :
    OrderBookSide.fillableFrom T side limit need available entries
      = min need (available + total (crossed side limit (ordersOf queues))) := by
  induction hholds generalizing available with
  | nil =>
    have hnil : crossed side limit (ordersOf []) = [] := rfl
    rw [OrderBookSide.fillableFrom, hnil, total_nil]
    omega
  | @cons entry queue entries queues hlevel hrest ih =>
    obtain ⟨price, level⟩ := entry
    rw [ordersOf_cons] at hpositive hfits hranked
    obtain ⟨hposQueue, hposRest⟩ := positive_append.mp hpositive
    have hqueue := hposQueue.total_nonneg
    have hrestNonneg := hposRest.total_nonneg
    rw [total_append] at hfits
    rw [OrderBookSide.fillableFrom]
    by_cases hcross : Crosses side limit price
    · have hall := (hlevel.crossed_eq hcross).1
      have hadd : T.add available level.totalQuantity = available + total (queue.map Prod.snd) := by
        rw [show level.totalQuantity = _ from hlevel.total_eq, SignedInt.add, Int.add_comm available,
          SignedInt.wrap_wrap_add, Int.add_comm _ available]
        exact hfits.of_le (by omega) (by omega)
      have hcrossedNonneg : 0 ≤ total (crossed side limit (ordersOf queues)) :=
        Positive.total_nonneg fun o ho => hposRest o ((crossed_sublist ..).subset ho)
      simp only [if_pos hcross, hadd, ordersOf_cons, crossed_append, hall, total_append]
      by_cases hreached : need ≤ available + total (queue.map Prod.snd)
      · rw [if_pos hreached]
        omega
      · rw [if_neg hreached, ih (hranked.sublist (List.sublist_append_right ..)) hposRest
          (by rwa [Int.add_assoc]) (by omega) (by omega), Int.add_assoc]
    · -- nothing behind a level that is not crossed is crossed
      obtain ⟨slot, slots, rfl⟩ := List.exists_cons_of_ne_nil hlevel.nonempty
      have hslot : ¬ Crosses side limit slot.2.price := by
        rw [hlevel.price_eq slot (List.mem_cons_self ..)]
        exact hcross
      rw [if_neg hcross, ordersOf_cons, List.map_cons, List.cons_append]
      rw [List.map_cons, List.cons_append] at hranked
      rw [hranked.crossed_eq_nil hslot, total_nil]
      omega

/-- A fill-or-kill order is let through exactly if the orders that its limit crosses can fill it. -/
theorem Represents.fillableAtLimit_eq (h : Represents T c levels) {event : AddOrderEvent}
    (hqty : 0 < event.quantity) (hfits : T.Fits (total (bookOf levels event.side.opposite))) :
    c.fillableAtLimit T event.side event
      = decide (event.quantity ≤ total ((bookOf levels).makers event.side event.price)) := by
  rw [Clob.fillableAtLimit, OrderBookSide.fillableQuantity,
    fillableFrom_eq (h.sides event.side.opposite) (h.valid.ranked event.side.opposite)
      (h.valid.positive event.side.opposite) (by rwa [Int.zero_add]) (le_refl 0) hqty]
  apply decide_eq_decide.mpr
  rw [Int.zero_add, le_min_iff]
  exact ⟨fun hle => hle.2, fun hle => ⟨le_refl _, hle⟩⟩

/-! ### Sums out of range -/

namespace OrderBookSide

variable {side : Side}

/-- The totals of the levels that a limit crosses, best first. -/
def crossingTotals (side : Side) (limit : Int) (entries : List (Int × PriceLevel)) : List Int :=
  (entries.filter fun entry => Crosses side limit entry.1).map fun entry => entry.2.totalQuantity

theorem crossingTotals_eq_nil {limit : Int} {entry : Int × PriceLevel} {entries : List (Int × PriceLevel)}
    (hsorted : (entry :: entries).Pairwise fun a b => RestingLevelsCompare side a.1 b.1)
    (hcross : ¬ Crosses side limit entry.1) : crossingTotals side limit (entry :: entries) = [] := by
  rw [crossingTotals, List.map_eq_nil_iff, List.filter_eq_nil_iff]
  intro e he
  rw [decide_eq_true_iff]
  rcases List.mem_cons.mp he with rfl | he
  · exact hcross
  · have hlt := (List.pairwise_cons.mp hsorted).1 e he
    cases side <;> simp only [Crosses, RestingLevelsCompare] at * <;> omega

/-- The probe stops at the first sum, as the type has it, that is enough. -/
theorem fillableFrom_cases (limit : Int) {need s : Int} {entries : List (Int × PriceLevel)}
    (hsorted : entries.Pairwise fun a b => RestingLevelsCompare side a.1 b.1) (hlt : T.wrap s < need) :
    (fillableFrom T side limit need (T.wrap s) entries = need ∧
        ∃ k, need ≤ T.wrap (s + ((crossingTotals side limit entries).take k).sum)) ∨
      (fillableFrom T side limit need (T.wrap s) entries
          = T.wrap (s + (crossingTotals side limit entries).sum) ∧
        ∀ k, T.wrap (s + ((crossingTotals side limit entries).take k).sum) < need) := by
  induction entries generalizing s with
  | nil =>
    right
    simp [fillableFrom, crossingTotals, hlt]
  | cons entry entries ih =>
    obtain ⟨price, level⟩ := entry
    rw [fillableFrom]
    by_cases hcross : Crosses side limit price
    · have htotals : crossingTotals side limit ((price, level) :: entries)
          = level.totalQuantity :: crossingTotals side limit entries := by
        rw [crossingTotals, List.filter_cons_of_pos (by simpa using hcross), List.map_cons]
        rfl
      have hadd : T.add (T.wrap s) level.totalQuantity = T.wrap (s + level.totalQuantity) :=
        T.wrap_wrap_add s _
      simp only [if_pos hcross, hadd, htotals]
      by_cases hreached : need ≤ T.wrap (s + level.totalQuantity)
      · rw [if_pos hreached]
        exact Or.inl ⟨rfl, 1, by simpa using hreached⟩
      rw [if_neg hreached]
      rcases ih (List.pairwise_cons.mp hsorted).2 (not_le.mp hreached) with ⟨heq, k, hk⟩ | ⟨heq, hall⟩
      · refine Or.inl ⟨heq, k + 1, ?_⟩
        rwa [List.take_succ_cons, List.sum_cons, ← Int.add_assoc]
      · refine Or.inr ⟨?_, fun k => ?_⟩
        · rw [heq, List.sum_cons, Int.add_assoc]
        · cases k with
          | zero => simpa using hlt
          | succ k =>
            rw [List.take_succ_cons, List.sum_cons, ← Int.add_assoc]
            exact hall k
    · right
      rw [if_neg hcross, crossingTotals_eq_nil hsorted hcross]
      simp [hlt]

end OrderBookSide

/-- The totals of the levels that an add crosses. -/
def Clob.crossingTotals (c : Clob) (event : AddOrderEvent) : List Int :=
  OrderBookSide.crossingTotals event.side.opposite event.price
    (c.sideBook event.side.opposite).levels.entries

theorem Clob.fillableQuantity_cases (c : Clob) {event : AddOrderEvent} (hneed : 0 < event.quantity) :
    ((c.sideBook event.side.opposite).fillableQuantity T event.price event.quantity = event.quantity ∧
        ∃ k, event.quantity ≤ T.wrap ((c.crossingTotals event).take k).sum) ∨
      ((c.sideBook event.side.opposite).fillableQuantity T event.price event.quantity
          = T.wrap (c.crossingTotals event).sum ∧
        ∀ k, T.wrap ((c.crossingTotals event).take k).sum < event.quantity) := by
  have hcases := OrderBookSide.fillableFrom_cases (T := T) event.price (s := 0)
    (c.sideBook event.side.opposite).levels.sorted (by rwa [SignedInt.wrap_zero])
  simp only [SignedInt.wrap_zero, Int.zero_add] at hcases
  exact hcases

theorem Clob.fillableAtLimit_eq_false_iff (c : Clob) (event : AddOrderEvent) :
    c.fillableAtLimit T event.side event = false ↔
      (c.sideBook event.side.opposite).fillableQuantity T event.price event.quantity
        < event.quantity := by
  rw [Clob.fillableAtLimit, decide_eq_false_iff_not, not_le]

theorem le_wrap_int64_iff {need x : Int} (hneed : 0 < need) :
    need ≤ SignedInt.int64.wrap x ↔ need ≤ x % 2 ^ 64 ∧ x % 2 ^ 64 < 2 ^ 63 := by
  have hwrap : SignedInt.int64.wrap x
      = if x % 2 ^ 64 < 2 ^ 63 then x % 2 ^ 64 else x % 2 ^ 64 - 2 ^ 64 := Int.bmod_def x (2 ^ 64)
  rw [hwrap]
  split <;> omega

theorem sum_take_le {totals : List Int} (h : ∀ t ∈ totals, 0 < t) (k : Nat) :
    0 ≤ (totals.take k).sum ∧ (totals.take k).sum ≤ totals.sum := by
  have hnonneg : ∀ ts : List Int, (∀ t ∈ ts, t ∈ totals) → 0 ≤ ts.sum := fun ts hts =>
    List.sum_nonneg fun t ht => (h t (hts t ht)).le
  have hsum : (totals.take k).sum + (totals.drop k).sum = totals.sum := by
    rw [← List.sum_append, List.take_append_drop]
  have htake := hnonneg (totals.take k) fun t ht => List.mem_of_mem_take ht
  have hdrop := hnonneg (totals.drop k) fun t ht => List.mem_of_mem_drop ht
  omega

/-- **When the probe is right.** It returns the sum of what an add crosses, capped at what it needs, and
lets an add that can be filled through, exactly if that sum is below the need or the front levels, up
to some level, sum modulo `2 ^ 64` to a positive 64-bit number that is enough. -/
theorem fillableQuantity_iff (c : Clob) (event : AddOrderEvent) (hneed : 0 < event.quantity)
    (hfits : SignedInt.int64.Fits event.quantity)
    (htotals : ∀ entry ∈ (c.sideBook event.side.opposite).levels.entries, 0 < entry.2.totalQuantity) :
    ((c.sideBook event.side.opposite).fillableQuantity .int64 event.price event.quantity
        = min event.quantity (c.crossingTotals event).sum ∧
      (c.fillableAtLimit .int64 event.side event = false →
        (c.crossingTotals event).sum < event.quantity)) ↔
      (c.crossingTotals event).sum < event.quantity ∨
        ∃ k, event.quantity ≤ ((c.crossingTotals event).take k).sum % 2 ^ 64 ∧
          ((c.crossingTotals event).take k).sum % 2 ^ 64 < 2 ^ 63 := by
  have hpos : ∀ t ∈ c.crossingTotals event, 0 < t := by
    intro t ht
    obtain ⟨entry, hentry, rfl⟩ := List.mem_map.mp ht
    exact htotals entry (List.mem_of_mem_filter hentry)
  -- below the need nothing is out of range
  have hsmall : (c.crossingTotals event).sum < event.quantity →
      ∀ k, SignedInt.int64.wrap ((c.crossingTotals event).take k).sum
        = ((c.crossingTotals event).take k).sum := by
    intro hlt k
    obtain ⟨hle, hsum⟩ := sum_take_le hpos k
    exact hfits.of_le hle (by omega)
  rw [c.fillableAtLimit_eq_false_iff event]
  simp only [← le_wrap_int64_iff hneed]
  rcases c.fillableQuantity_cases (T := .int64) hneed with ⟨heq, k, hk⟩ | ⟨heq, hall⟩
  · rw [heq]
    have henough : event.quantity ≤ (c.crossingTotals event).sum := by
      by_contra hlt
      obtain ⟨-, hsum⟩ := sum_take_le hpos k
      rw [hsmall (by omega) k] at hk
      omega
    exact ⟨fun _ => Or.inr ⟨k, hk⟩, fun _ => ⟨by omega, fun hlt => absurd hlt (lt_irrefl _)⟩⟩
  · have hlast := hall (c.crossingTotals event).length
    rw [List.take_length] at hlast
    rw [heq]
    constructor
    · intro ⟨hmin, _⟩
      left
      omega
    · rintro (hlt | ⟨k, hk⟩)
      · have hsum := hsmall hlt (c.crossingTotals event).length
        rw [List.take_length] at hsum
        rw [hsum]
        exact ⟨by omega, fun _ => hlt⟩
      · exact absurd (hall k) hk.not_gt

theorem fillableQuantity_iff_asks :
    ∃ c, (∃ emitted, Clob.run .int64 {} [.addOrder ⟨1, .sell, 5, 100, .gtc⟩,
        .addOrder ⟨2, .sell, 4, 101, .gtc⟩] = .ok (c, emitted)) ∧
      ((c.asks.fillableQuantity .int64 101 7 = min 7 (c.crossingTotals ⟨3, .buy, 7, 101, .fok⟩).sum ∧
        (c.fillableAtLimit .int64 .buy ⟨3, .buy, 7, 101, .fok⟩ = false →
          (c.crossingTotals ⟨3, .buy, 7, 101, .fok⟩).sum < 7)) ↔
        (c.crossingTotals ⟨3, .buy, 7, 101, .fok⟩).sum < 7 ∨
          ∃ k, 7 ≤ ((c.crossingTotals ⟨3, .buy, 7, 101, .fok⟩).take k).sum % 2 ^ 64 ∧
            ((c.crossingTotals ⟨3, .buy, 7, 101, .fok⟩).take k).sum % 2 ^ 64 < 2 ^ 63) :=
  ⟨_, ⟨_, rfl⟩, fillableQuantity_iff _ ⟨3, .buy, 7, 101, .fok⟩ (by decide) (by decide +kernel)
    (by decide +kernel)⟩

/-- A FOK order for all that a signed 64-bit quantity can be, in front of a level that holds one less
and a level that holds two. It is killed. -/
theorem not_fillableQuantity :
    ∃ c, (∃ emitted, Clob.run .int64 {} [.addOrder ⟨1, .sell, 2 ^ 63 - 2, 100, .gtc⟩,
        .addOrder ⟨2, .sell, 2, 101, .gtc⟩] = .ok (c, emitted)) ∧
      (∀ entry ∈ c.asks.levels.entries,
        0 < entry.2.totalQuantity ∧ SignedInt.int64.Fits entry.2.totalQuantity) ∧
      c.asks.fillableQuantity .int64 101 (2 ^ 63 - 1)
        ≠ min (2 ^ 63 - 1) (c.crossingTotals ⟨3, .buy, 2 ^ 63 - 1, 101, .fok⟩).sum ∧
      2 ^ 63 - 1 ≤ (c.crossingTotals ⟨3, .buy, 2 ^ 63 - 1, 101, .fok⟩).sum ∧
      c.onInput .int64 (.addOrder ⟨3, .buy, 2 ^ 63 - 1, 101, .fok⟩)
        = .ok (c, [.orderCancelled ⟨3, 0, 2 ^ 63 - 1, .fillOrKill⟩]) :=
  ⟨_, ⟨_, rfl⟩, by decide +kernel, by decide +kernel, by decide +kernel, rfl⟩

end MatchingEngine
