import MatchingEngine.Book.EventShape
import MatchingEngine.Book.Probe
import MatchingEngine.Book.Rejection
import MatchingEngine.Book.Relabel

/-!
# Fill or kill

The probe decides before anything is matched. Where it lets an order through, the makers can fill it,
and matching, which does not look at the time in force, does what it does for an IOC order. Where it
does not, the order is cancelled and nothing is touched. So a FOK order trades in full or not at all.
-/

namespace MatchingEngine

open Divisible PriorityBook

variable {T : SignedInt} {c : Clob} {levels : Side → List (List Slot)}

/-- Every order sent as IOC. -/
def sentAsIoc : Relabelling where
  side := id
  price := id
  tif := fun _ => .ioc
  compare _ _ _ h := h

theorem relabelArena_sentAsIoc (arena : Heap OrderNode) : relabelArena sentAsIoc arena = arena :=
  congrArg Heap.mk (List.map_id _)

theorem relabel_sentAsIoc {side : Side} (book : OrderBookSide side) : book.relabel sentAsIoc = book := by
  have hentries : book.levels.entries.map (Prod.map id id) = book.levels.entries := by
    rw [Prod.map_id, List.map_id]
  exact congrArg OrderBookSide.mk (OrderedMap.ext hentries)

namespace Represents

/-- Matching an order sent as IOC differs in the label that the order carries. -/
theorem matchAgainst_sentAsIoc {side : Side} {opposite opposite' : OrderBookSide side} {s s' : MatchState}
    (hmatch : MatchingEngine.matchAgainst T opposite s = .ok (opposite', s')) :
    MatchingEngine.matchAgainst T opposite { s with incoming := { s.incoming with tif := .ioc } }
      = .ok (opposite', { s' with incoming := { s'.incoming with tif := .ioc } }) := by
  have hlabel : ∀ s : MatchState, s.relabel sentAsIoc
      = { s with incoming := { s.incoming with tif := .ioc } } := by
    intro s
    rw [MatchState.relabel, relabelArena_sentAsIoc]
    rfl
  have hrelabel := relabel_matchAgainst sentAsIoc T opposite s
  rw [hmatch, map_ok, Prod.map_apply, hlabel, hlabel, relabel_sentAsIoc, relabel_sentAsIoc] at hrelabel
  exact hrelabel.symm

/-- An order that is filled does not depend on its time in force. -/
theorem addOrder_sentAsIoc (h : Represents T c levels) {event : AddOrderEvent}
    (hqty : 0 < event.quantity) (hfits : T.Fits event.quantity)
    (hfull : event.quantity ≤ total ((bookOf levels).makers event.side event.price))
    (hkill : ¬ (event.tif = .fok ∧ c.fillableAtLimit T event.side event = false)) :
    c.addOrder T event.side event = c.addOrder T event.side { event with tif := .ioc } := by
  obtain ⟨opposite, s, levels', hmatch, hswept⟩ := h.matchAgainst hqty.le hfits
  have hresidue : s.incoming.quantity = 0 := by
    rw [hswept.incoming_eq]
    simp only
    omega
  have hioc : ¬ (Tif.ioc = .fok ∧
      c.fillableAtLimit T event.side { event with tif := .ioc } = false) := nofun
  rw [Clob.addOrder, Clob.addOrder, if_neg hkill, hmatch, matchAgainst_sentAsIoc hmatch]
  simp only [ok_bind, if_pos hresidue, if_neg hioc]

theorem addOrder_filled (h : Represents T c levels) {event : AddOrderEvent} (hid : 0 < event.orderId)
    (hqty : 0 < event.quantity) (hprice : 0 < event.price) (hfits : T.Fits event.quantity)
    (hfull : event.quantity ≤ total ((bookOf levels).makers event.side event.price))
    (hkill : ¬ (event.tif = .fok ∧ c.fillableAtLimit T event.side event = false)) :
    ∃ c', c.addOrder T event.side event = .ok (c',
      fillEvents event.orderId event.quantity ((bookOf levels).makers event.side event.price)
        ++ [.orderFilled ⟨event.orderId, event.quantity⟩]) := by
  obtain ⟨c', levels', hadd, -⟩ := h.addOrder hid hqty hprice hfits
  refine ⟨c', ?_⟩
  rw [hadd]
  apply addOrder_cases (P := fun _ emitted => Except.ok (c', emitted) = Except.ok (c', _))
  · intro hfok hfillable
    exact absurd ⟨hfok, hfillable⟩ hkill
  · intro _
    rfl
  · intro hlt
    exact absurd hlt hfull.not_gt
  · intro hlt
    exact absurd hlt hfull.not_gt
  · intro _ hlt
    exact absurd hlt hfull.not_gt

end Represents

/-- **All or nothing.** A valid FOK order, sent to a book whose opposite side sums to a 64-bit quantity:
if the orders at crossing prices can fill it, it does what the same order does as IOC and is filled;
otherwise it is cancelled and the book stays as it is. So after a trade it ends with FIL. -/
theorem run_fillOrKill (events : List InputEvent) (add : AddOrderEvent)
    (hfits : ∀ e ∈ events, e.Fits .int64) (hadd : (InputEvent.addOrder add).Fits .int64)
    (hid : 0 < add.orderId) (hqty : 0 < add.quantity) (hprice : 0 < add.price)
    (hfok : add.tif = .fok) :
    ∃ c emitted, Clob.run .int64 {} events = .ok (c, emitted) ∧
      (total (c.restingOrders add.side.opposite) < 2 ^ 63 →
        (add.quantity ≤ total (c.makers add) →
          c.onInput .int64 (.addOrder add) = c.onInput .int64 (.addOrder { add with tif := .ioc }) ∧
          ∃ c' fills, c.onInput .int64 (.addOrder add)
            = .ok (c', fills ++ [.orderFilled ⟨add.orderId, add.quantity⟩])) ∧
        (total (c.makers add) < add.quantity → c.onInput .int64 (.addOrder add)
          = .ok (c, [.orderCancelled ⟨add.orderId, 0, add.quantity, .fillOrKill⟩])) ∧
        ∃ c' fills terminal emitted', c.onInput .int64 (.addOrder add) = .ok (c', emitted') ∧
          EventShape add.orderId fills terminal emitted' ∧
          (fills ≠ [] → terminal = .orderFilled ⟨add.orderId, add.quantity⟩)) := by
  obtain ⟨c, emitted, levels, hrun, hc⟩ := run_represents events hfits
  refine ⟨c, emitted, hrun, fun hroom => ?_⟩
  rw [hc.restingOrders_eq] at hroom
  have hsum := (hc.valid.positive add.side.opposite).total_nonneg
  have hprobe := hc.fillableAtLimit_eq hqty (SignedInt.fits_int64_of_lt hsum hroom)
  have hvalid : ∀ tif, c.onInput .int64 (.addOrder { add with tif })
      = c.addOrder .int64 add.side { add with tif } := by
    intro tif
    simp only [Clob.onInput, Clob.onAddOrder, if_neg (not_le.mpr hid), if_neg (not_le.mpr hqty),
      if_neg (not_le.mpr hprice)]
  have hinput : c.onInput .int64 (.addOrder add) = c.addOrder .int64 add.side add := hvalid add.tif
  rw [hc.makers_eq, hinput]
  by_cases hfull : add.quantity ≤ total ((bookOf levels).makers add.side add.price)
  · obtain ⟨c', hfilled⟩ := hc.addOrder_filled hid hqty hprice hadd.2.1 hfull (by simp [hprobe, hfull])
    refine ⟨fun _ => ⟨?_, c', _, hfilled⟩, fun hlt => absurd hlt hfull.not_gt, ?_⟩
    · rw [hvalid .ioc]
      exact hc.addOrder_sentAsIoc hqty hadd.2.1 hfull (by simp [hprobe, hfull])
    · exact ⟨c', _, _, _, hfilled, eventShape_fills hc.valid (.filled hqty.le) fun _ => ⟨_, rfl⟩,
        fun _ => rfl⟩
  · have hkilled : c.addOrder .int64 add.side add
        = .ok (c, [.orderCancelled ⟨add.orderId, 0, add.quantity, .fillOrKill⟩]) := by
      rw [Clob.addOrder, if_pos ⟨hfok, by simpa [hprobe] using hfull⟩]
      rfl
    refine ⟨fun hle => absurd hle hfull, fun _ => hkilled, ?_⟩
    exact ⟨c, [], _, _, hkilled, eventShape_singleton (.cancelled (le_refl 0) hqty),
      fun hne => absurd rfl hne⟩

/-- A FOK for 7 against 5 at 100 and 4 at 101. -/
theorem run_fillOrKill_sweep :
    ∃ c emitted, Clob.run .int64 {} [.addOrder ⟨1, .sell, 5, 100, .gtc⟩,
        .addOrder ⟨2, .sell, 4, 101, .gtc⟩] = .ok (c, emitted) ∧
      (total (c.restingOrders .sell) < 2 ^ 63 →
        (7 ≤ total (c.makers ⟨3, .buy, 7, 101, .fok⟩) →
          c.onInput .int64 (.addOrder ⟨3, .buy, 7, 101, .fok⟩)
            = c.onInput .int64 (.addOrder ⟨3, .buy, 7, 101, .ioc⟩) ∧
          ∃ c' fills, c.onInput .int64 (.addOrder ⟨3, .buy, 7, 101, .fok⟩)
            = .ok (c', fills ++ [.orderFilled ⟨3, 7⟩])) ∧
        (total (c.makers ⟨3, .buy, 7, 101, .fok⟩) < 7 →
          c.onInput .int64 (.addOrder ⟨3, .buy, 7, 101, .fok⟩)
            = .ok (c, [.orderCancelled ⟨3, 0, 7, .fillOrKill⟩])) ∧
        ∃ c' fills terminal emitted',
          c.onInput .int64 (.addOrder ⟨3, .buy, 7, 101, .fok⟩) = .ok (c', emitted') ∧
          EventShape 3 fills terminal emitted' ∧ (fills ≠ [] → terminal = .orderFilled ⟨3, 7⟩)) :=
  run_fillOrKill [.addOrder ⟨1, .sell, 5, 100, .gtc⟩, .addOrder ⟨2, .sell, 4, 101, .gtc⟩]
    ⟨3, .buy, 7, 101, .fok⟩ (by decide +kernel) (by decide +kernel) (by decide) (by decide) (by decide) rfl

end MatchingEngine
