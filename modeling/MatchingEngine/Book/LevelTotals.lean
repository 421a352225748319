import Mathlib.Algebra.Order.BigOperators.Group.List
import MatchingEngine.Book.Run
import MatchingEngine.Book.View

/-!
# Level totals

A level caches the sum of what is queued at its price and keeps it up to date in the integer type.
The cache is therefore exact as long as every price of a side adds up to a value of the type. Matching
and cancelling only lower these sums; what raises one past 2^63 is an add that rests whole, behind
orders that have filled its price up already.
-/

namespace MatchingEngine

open Divisible PriorityBook

namespace PriorityBook

/-- What rests at a price of a side. -/
def queued (b : PriorityBook) (side : Side) (price : Int) : Int :=
  total ((b side).filter fun o => o.price = price)

/-- What rests at any one price is less than 2^63. -/
def Roomy (b : PriorityBook) : Prop := ∀ side price, b.queued side price < 2 ^ 63

/-- A valid GTC add that crosses nothing and finds no room left at its price. -/
structure Overfills (b : PriorityBook) (event : AddOrderEvent) : Prop where
  accepted : event.Accepted
  gtc : event.tif = .gtc
  crosses_nothing : b.makers event.side event.price = []
  fresh : event.orderId ∉ b.orders.map RestingOrder.orderId
  full : 2 ^ 63 ≤ b.queued event.side event.price + event.quantity

variable {b : PriorityBook}

theorem roomy_empty : Roomy fun _ => [] := by
  intro side price
  show (0 : Int) < 2 ^ 63
  decide

theorem Valid.queued_nonneg (h : b.Valid) (side : Side) (price : Int) : 0 ≤ b.queued side price :=
  Positive.total_nonneg fun o ho => h.positive side o (List.mem_of_mem_filter ho)

theorem queued_sweep_le (h : b.Valid) (side : Side) (limit q : Int) (s : Side) (price : Int) :
    (b.sweep side limit q).queued s price ≤ b.queued s price := by
  rcases Side.eq_or_eq_opposite side s with rfl | rfl
  · rw [queued, sweep_same]
    exact le_refl _
  · have hmakers := total_filter_left (f := fun o : RestingOrder => o.price = price)
      (fun _ _ => rfl) q (b.makers side limit)
    have htaken : 0 ≤ (((takes q (b.makers side limit)).filter fun take =>
        take.1.price = price).map Prod.snd).sum := by
      apply List.sum_nonneg
      intro t ht
      obtain ⟨take, htake, rfl⟩ := List.mem_map.mp ht
      exact (mem_takes (h.positive_makers side limit) (List.mem_of_mem_filter htake)).2.1.le
    rw [queued, queued, sweep_opposite, ← h.makers_append_bystanders side limit, List.filter_append,
      List.filter_append, total_append, total_append]
    omega

theorem queued_withdraw_le (h : b.Valid) (orderId : Int) (side : Side) (price : Int) :
    (b.withdraw orderId).queued side price ≤ b.queued side price := by
  apply Positive.total_le_of_sublist
  · intro o ho
    exact h.positive side o (List.mem_of_mem_filter ho)
  · exact List.filter_sublist.filter _

theorem queued_rest (b : PriorityBook) (o : RestingOrder) (side : Side) (price : Int) :
    (b.rest o).queued side price
      = b.queued side price + if side = o.side ∧ price = o.price then o.quantity else 0 := by
  by_cases hside : side = o.side
  · subst hside
    have hperm := (((enqueue_perm o (b o.side)).filter fun p => p.price = price).map amount).sum_eq
    rw [queued, rest_same, total, hperm, List.filter_cons, queued]
    by_cases hprice : o.price = price
    · simp [hprice, total]
      omega
    · simp [hprice, Ne.symm hprice, total]
  · rw [queued, PriorityBook.rest, Function.update_of_ne hside, if_neg fun hand => hside hand.1,
      Int.add_zero, queued]

/-- Where an order crosses, nothing rests at its price on its own side. -/
theorem queued_eq_zero (h : b.Valid) {side : Side} {limit : Int} (hne : b.makers side limit ≠ []) :
    b.queued side limit = 0 := by
  obtain ⟨m, hm⟩ := List.exists_mem_of_ne_nil _ hne
  have hnil : (b side).filter (fun o => o.price = limit) = [] := by
    apply List.filter_eq_nil_iff.mpr
    intro o ho heq
    apply h.uncrossed side o ho m (List.mem_of_mem_filter hm)
    rw [show o.price = limit by simpa using heq]
    exact crosses_of_mem_makers m hm
  rw [queued, hnil, total_nil]

theorem roomy_addOrder_iff (h : b.Valid) (hroomy : b.Roomy) (fillable : Bool) {event : AddOrderEvent}
    (haccepted : event.Accepted) (hqty : event.quantity < 2 ^ 63) :
    (b.addOrder fillable event).1.Roomy ↔ ¬ b.Overfills event := by
  have hswept : (b.sweep event.side event.price event.quantity).Roomy := fun s price =>
    lt_of_le_of_lt (queued_sweep_le h _ _ _ s price) (hroomy s price)
  have hnonneg := (h.positive_makers event.side event.price).total_nonneg
  apply addOrder_cases (P := fun b' _ => b'.Roomy ↔ _)
  · intro hfok _
    apply iff_of_true hroomy
    intro hover
    exact absurd (hfok.symm.trans hover.gtc) (by decide)
  · intro hle
    apply iff_of_true hswept
    intro hover
    rw [hover.crosses_nothing, total_nil] at hle
    exact absurd haccepted.2.1 (not_lt.mpr hle)
  · intro _ _ hmem
    apply iff_of_true hswept
    intro hover
    exact hover.fresh (sweep_orderIds_subset h _ _ _ hmem)
  · intro hlt hgtc hfresh
    by_cases hnil : b.makers event.side event.price = []
    · rw [sweep_self h (Or.inr hnil)] at hfresh ⊢
      rw [hnil, total_nil, Int.sub_zero]
      constructor
      · intro hrested hover
        have hroom := hrested event.side event.price
        rw [queued_rest, if_pos ⟨rfl, rfl⟩] at hroom
        exact absurd hroom (not_lt.mpr hover.full)
      · intro hnot s price
        rw [queued_rest]
        by_cases hplace : s = event.side ∧ price = event.price
        · obtain ⟨rfl, rfl⟩ := hplace
          rw [if_pos ⟨rfl, rfl⟩]
          by_contra hfull
          exact hnot ⟨haccepted, hgtc, hnil, hfresh, not_lt.mp hfull⟩
        · rw [if_neg hplace, Int.add_zero]
          exact hroomy s price
    · -- the residue is alone at its price
      refine iff_of_true ?_ fun hover => hnil hover.crosses_nothing
      intro s price
      rw [queued_rest]
      have hbound := hswept s price
      by_cases hplace : s = event.side ∧ price = event.price
      · obtain ⟨rfl, rfl⟩ := hplace
        have hzero := queued_eq_zero h hnil
        have hle := queued_sweep_le h event.side event.price event.quantity event.side event.price
        rw [if_pos ⟨rfl, rfl⟩]
        simp only
        omega
      · rw [if_neg hplace, Int.add_zero]
        exact hbound
  · intro cause _ hnot
    exact iff_of_true hswept fun hover => hnot hover.gtc

theorem roomy_onInput_iff (h : b.Valid) (hroomy : b.Roomy) (fillable : Bool) {event : InputEvent}
    (hfits : event.Fits .int64) :
    (b.onInput fillable event).1.Roomy ↔ ¬ ∃ add, event = .addOrder add ∧ b.Overfills add := by
  cases event with
  | shutdown =>
    apply iff_of_true hroomy
    rintro ⟨add, hadd, -⟩
    exact InputEvent.noConfusion hadd
  | addOrder event =>
    have hqty : event.quantity < 2 ^ 63 := (SignedInt.fits_int64_iff.mp hfits.2.1).2
    have hiff : (¬ ∃ add, InputEvent.addOrder event = .addOrder add ∧ b.Overfills add) ↔
        ¬ b.Overfills event := by simp
    rw [hiff]
    apply onAddOrder_cases (P := fun b' _ => b'.Roomy ↔ _)
    · intro _ hnot
      exact iff_of_true hroomy fun hover => hnot hover.accepted
    · intro haccepted
      exact roomy_addOrder_iff h hroomy fillable haccepted hqty
  | cancelOrder event =>
    have hnone : ¬ ∃ add, InputEvent.cancelOrder event = .addOrder add ∧ b.Overfills add := by
      rintro ⟨add, hadd, -⟩
      exact InputEvent.noConfusion hadd
    apply onCancelOrder_cases (P := fun b' _ => b'.Roomy ↔ _)
    · intro _
      exact iff_of_true hroomy hnone
    · intro o _ _
      refine iff_of_true ?_ hnone
      intro side price
      exact lt_of_le_of_lt (queued_withdraw_le h o.orderId side price) (hroomy side price)

end PriorityBook

variable {c : Clob} {levels : Side → List (List Slot)}

/-- Every cached total is the sum of the quantities queued at its level. -/
def Clob.TotalsExact (c : Clob) : Prop :=
  ∀ side, ∀ entry ∈ (c.sideBook side).levels.entries,
    entry.2.totalQuantity = ((c.queue entry.2).map RestingOrder.quantity).sum

instance (c : Clob) : Decidable c.TotalsExact :=
  decidable_of_iff
    ((∀ entry ∈ (c.sideBook .buy).levels.entries,
        entry.2.totalQuantity = ((c.queue entry.2).map RestingOrder.quantity).sum) ∧
      ∀ entry ∈ (c.sideBook .sell).levels.entries,
        entry.2.totalQuantity = ((c.queue entry.2).map RestingOrder.quantity).sum)
    ⟨fun h side => by cases side <;> [exact h.1; exact h.2], fun h => ⟨h .buy, h .sell⟩⟩

/-- The input makes the total of a level leave the type. -/
def Clob.Overfills (c : Clob) (event : InputEvent) : Prop :=
  ∃ add, event = .addOrder add ∧ PriorityBook.Overfills c.restingOrders add

/-- The queue of a level holds what rests at its price. -/
theorem Represents.queued_eq {T : SignedInt} (h : Represents T c levels) {side : Side}
    {entry : Int × PriceLevel} (hentry : entry ∈ (c.sideBook side).levels.entries) :
    ((c.queue entry.2).map RestingOrder.quantity).sum = (bookOf levels).queued side entry.1 ∧
      entry.2.totalQuantity = T.wrap ((bookOf levels).queued side entry.1) := by
  obtain ⟨before, after, hsplit⟩ := List.append_of_mem hentry
  have hholds := h.sides side
  rw [hsplit] at hholds
  obtain ⟨bs, queue, as, hlevels, hbs, hlevel, has⟩ := forall₂_split_left hholds
  obtain ⟨hbefore, hafter⟩ := OrderedMap.ne_of_split hsplit
  have hbefore' : (ordersOf bs).filter (fun o => o.price = entry.1) = [] := by
    apply List.filter_eq_nil_iff.mpr
    intro o ho
    simpa using ladder_price (P := fun price => price ≠ entry.1) hbs hbefore o ho
  have hafter' := ladder_price (P := fun price => price ≠ entry.1) has hafter
  have hqueued : (bookOf levels).queued side entry.1 = total (queue.map Prod.snd) := by
    rw [queued, bookOf, hlevels, ordersOf_append, ordersOf_cons, List.filter_append,
      hlevel.filter_eq hafter', hbefore', List.nil_append]
  rw [hqueued, hlevel.queue_eq]
  exact ⟨rfl, hlevel.total_eq⟩

theorem Represents.totalsExact_iff (h : Represents .int64 c levels) :
    c.TotalsExact ↔ (bookOf levels).Roomy := by
  constructor
  · intro hexact side price
    by_cases hzero : (bookOf levels).queued side price = 0
    · rw [hzero]
      decide
    · obtain ⟨o, ho⟩ := List.exists_mem_of_ne_nil _ fun hnil => hzero (congrArg total hnil)
      have hprice : o.price = price := by simpa using (List.mem_filter.mp ho).2
      have hkey : price ∈ (c.sideBook side).levels.entries.map Prod.fst := by
        rw [ladder_keys (h.sides side), ← hprice]
        exact List.mem_map_of_mem (List.mem_of_mem_filter ho)
      obtain ⟨entry, hentry, rfl⟩ := List.mem_map.mp hkey
      obtain ⟨hsum, htotal⟩ := h.queued_eq hentry
      have hcached := hexact side entry hentry
      rw [hsum, htotal] at hcached
      exact (SignedInt.fits_int64_iff.mp hcached).2
  · intro hroomy side entry hentry
    obtain ⟨hsum, htotal⟩ := h.queued_eq hentry
    rw [hsum, htotal]
    exact SignedInt.fits_int64_of_lt (h.valid.queued_nonneg side entry.1) (hroomy side entry.1)

theorem Represents.overfills_iff {T : SignedInt} (h : Represents T c levels) (event : InputEvent) :
    c.Overfills event ↔ ∃ add, event = .addOrder add ∧ (bookOf levels).Overfills add := by
  rw [Clob.Overfills, show c.restingOrders = bookOf levels from funext h.restingOrders_eq]

/-- **One input.** The totals stay exact unless it overfills a level. -/
theorem totalsExact_concat (before : List InputEvent) (event : InputEvent)
    (hfits : ∀ e ∈ before ++ [event], e.Fits .int64) :
    ∃ c emitted c' emitted', Clob.run .int64 {} before = .ok (c, emitted) ∧
      Clob.run .int64 {} (before ++ [event]) = .ok (c', emitted') ∧
      (c.TotalsExact → (c'.TotalsExact ↔ ¬ c.Overfills event)) := by
  have hevent : event.Fits .int64 := hfits event (List.mem_append_right _ (List.mem_singleton_self _))
  obtain ⟨c, emitted, levels, hrun, hc⟩ :=
    run_represents before fun e he => hfits e (List.mem_append_left _ he)
  obtain ⟨c', levels', hinput, hbecomes⟩ := hc.onInput hevent
  refine ⟨c, emitted, c', _, hrun, Clob.run_concat hrun hinput, ?_⟩
  intro hexact
  rw [hbecomes.represents.totalsExact_iff, hbecomes.book_eq, hc.overfills_iff]
  exact roomy_onInput_iff hc.valid (hc.totalsExact_iff.mp hexact) _ hevent

/-- **When the cached totals are exact.** They are after every event of a run exactly if no event of
it overfills a level. -/
theorem run_totalsExact_iff (events : List InputEvent) (hfits : ∀ event ∈ events, event.Fits .int64) :
    (∀ before, before <+: events →
      ∃ c emitted, Clob.run .int64 {} before = .ok (c, emitted) ∧ c.TotalsExact) ↔
    ∀ before event, before ++ [event] <+: events →
      ∃ c emitted, Clob.run .int64 {} before = .ok (c, emitted) ∧ ¬ c.Overfills event := by
  constructor
  · intro hall before event hinitial
    obtain ⟨c, emitted, c', emitted', hrun, hrun', hstep⟩ :=
      totalsExact_concat before event fun e he => hfits e (hinitial.subset he)
    obtain ⟨c₁, emitted₁, hrun₁, hexact⟩ := hall before ((List.prefix_append ..).trans hinitial)
    obtain ⟨c₂, emitted₂, hrun₂, hexact'⟩ := hall _ hinitial
    obtain ⟨rfl, rfl⟩ := ok_unique hrun hrun₁
    obtain ⟨rfl, rfl⟩ := ok_unique hrun' hrun₂
    exact ⟨c, emitted, hrun, (hstep hexact).mp hexact'⟩
  · intro hall before
    induction before using List.reverseRecOn with
    | nil =>
      intro _
      refine ⟨{}, [], rfl, ?_⟩
      exact (represents_empty .int64).totalsExact_iff.mpr roomy_empty
    | append_singleton before event ih =>
      intro hinitial
      obtain ⟨c, emitted, c', emitted', hrun, hrun', hstep⟩ :=
        totalsExact_concat before event fun e he => hfits e (hinitial.subset he)
      obtain ⟨c₁, emitted₁, hrun₁, hexact⟩ := ih ((List.prefix_append ..).trans hinitial)
      obtain ⟨c₂, emitted₂, hrun₂, hnot⟩ := hall before event hinitial
      obtain ⟨rfl, rfl⟩ := ok_unique hrun hrun₁
      obtain ⟨rfl, rfl⟩ := ok_unique hrun hrun₂
      exact ⟨c', emitted', hrun', (hstep hexact).mpr hnot⟩

theorem run_totalsExact_iff_two :
    (∀ before, before <+: [.addOrder ⟨1, .buy, 5, 1, .gtc⟩, .addOrder ⟨2, .buy, 7, 1, .gtc⟩] →
      ∃ c emitted, Clob.run .int64 {} before = .ok (c, emitted) ∧ c.TotalsExact) ↔
    ∀ before event,
      before ++ [event] <+: [.addOrder ⟨1, .buy, 5, 1, .gtc⟩, .addOrder ⟨2, .buy, 7, 1, .gtc⟩] →
        ∃ c emitted, Clob.run .int64 {} before = .ok (c, emitted) ∧ ¬ c.Overfills event :=
  run_totalsExact_iff _ (by decide +kernel)

/-- Two orders of the largest quantity, one behind the other. -/
theorem not_totalsExact :
    ∃ c emitted, Clob.run .int64 {} [.addOrder ⟨1, .buy, 2 ^ 63 - 1, 1, .gtc⟩,
        .addOrder ⟨2, .buy, 2 ^ 63 - 1, 1, .gtc⟩] = .ok (c, emitted) ∧ ¬ c.TotalsExact := by
  obtain ⟨c, emitted, levels, hrun, -⟩ := run_represents (T := .int64)
    [.addOrder ⟨1, .buy, 2 ^ 63 - 1, 1, .gtc⟩, .addOrder ⟨2, .buy, 2 ^ 63 - 1, 1, .gtc⟩]
    (by decide +kernel)
  have hexact : (Clob.run .int64 {} [.addOrder ⟨1, .buy, 2 ^ 63 - 1, 1, .gtc⟩,
      .addOrder ⟨2, .buy, 2 ^ 63 - 1, 1, .gtc⟩]).map (fun r => decide r.1.TotalsExact)
        = .ok false := by
    decide +kernel
  rw [hrun, map_ok, Except.ok.injEq, decide_eq_false_iff_not] at hexact
  exact ⟨c, emitted, hrun, hexact⟩

end MatchingEngine
