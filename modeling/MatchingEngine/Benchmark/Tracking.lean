import MatchingEngine.Benchmark.OrderGenerator
import MatchingEngine.Book.Batch
import MatchingEngine.Book.Provenance

/-!
# The generator keeps track of the book

The generator never sees the book. Still the orders that it takes to be live are those in the book, each
with its side and its price, and those that have been filled: an order of its stream leaves the book by a
cancel that the generator has drawn itself, or by being filled.
-/

namespace MatchingEngine

open Divisible PriorityBook Sampling

/-! ### The book on an order stream -/

/-- Adds of distinct ids are told apart by these. -/
theorem add_unique {events : List InputEvent} (hnodup : (addIds events).Nodup) {add add' : AddOrderEvent}
    (hadd : .addOrder add ∈ events) (hadd' : .addOrder add' ∈ events) (hid : add.orderId = add'.orderId) :
    add = add' := by
  have hmem : ∀ {events : List InputEvent} {add : AddOrderEvent}, .addOrder add ∈ events →
      add.orderId ∈ addIds events := fun h => List.mem_filterMap.mpr ⟨_, h, rfl⟩
  induction events with
  | nil => exact absurd hadd List.not_mem_nil
  | cons event events ih =>
    rw [addIds_cons, List.nodup_append] at hnodup
    obtain ⟨-, hnodup, hnew⟩ := hnodup
    rcases List.mem_cons.mp hadd with rfl | hin
    · rcases List.mem_cons.mp hadd' with heq | hin'
      · exact (InputEvent.addOrder.inj heq).symm
      · exact absurd hid (hnew _ (List.mem_singleton_self _) _ (hmem hin'))
    · rcases List.mem_cons.mp hadd' with rfl | hin'
      · exact absurd hid.symm (hnew _ (List.mem_singleton_self _) _ (hmem hin))
      · exact ih hnodup hin hin'

variable {T : SignedInt}

/-- What has been cancelled does not rest. -/
theorem run_uncancelled (events : List InputEvent) (hfits : ∀ e ∈ events, e.Fits T) :
    ∃ c emitted levels, Clob.run T {} events = .ok (c, emitted) ∧ Represents T c levels ∧
      (OrderStream events →
        ∀ id ∈ (bookOf levels).orders.map RestingOrder.orderId, .cancelOrder ⟨id⟩ ∉ events) := by
  apply run_induction (P := fun events _ _ levels => OrderStream events →
    ∀ id ∈ (bookOf levels).orders.map RestingOrder.orderId, .cancelOrder ⟨id⟩ ∉ events) _ _ events hfits
  · simp
  intro events emitted c levels event c' levels' hc hbefore _ hbecomes hstream id hid
  have hbefore := hbefore (hstream.of_prefix (List.prefix_append ..))
  rw [hbecomes.book_eq] at hid
  rw [List.mem_append, List.mem_singleton, not_or]
  cases event with
  | shutdown => exact absurd (by simp) hstream.not_shutdown
  | cancelOrder cancel =>
    change id ∈ ((bookOf levels).onCancelOrder cancel).1.orders.map RestingOrder.orderId at hid
    rw [onCancelOrder_fst hc.valid, orders_withdraw] at hid
    obtain ⟨o, ho, rfl⟩ := List.mem_map.mp hid
    obtain ⟨ho, hne⟩ := List.mem_filter.mp ho
    refine ⟨hbefore _ (List.mem_map_of_mem ho), ?_⟩
    rintro ⟨rfl⟩
    simp at hne
  | addOrder add =>
    refine ⟨fun hcancel => ?_, nofun⟩
    rcases List.mem_append.mp (orderIds_onInput hc.valid _ _ hid) with hold | hnew
    · exact hbefore id hold hcancel
    · -- it would have been cancelled before it was added
      have hnodup := hstream.nodup
      rw [addIds_append, List.nodup_append] at hnodup
      exact hnodup.2.2 id ((hstream.of_prefix (List.prefix_append ..)).added_of_cancel hcancel) id hnew rfl

namespace OrderGenerator

variable {ρ σ : Type} {profile : MarketProfile ρ} {g g' : OrderGenerator ρ} {events : List InputEvent}

/-! ### The live orders -/

/-- The live orders are kept as they were added. -/
def Listed (events : List InputEvent) (g : OrderGenerator ρ) : Prop :=
  ∀ order ∈ g.live, ∃ quantity, .addOrder ⟨order.id, order.side, quantity, order.price, .gtc⟩ ∈ events

theorem Listed.step {event : InputEvent} (h : Listed events g) (hstep : Stepped profile g event g') :
    Listed (events ++ [event]) g' := by
  cases hstep with
  | @add side quantity price _ hid hlive =>
    intro order horder
    rw [hlive] at horder
    rcases List.mem_append.mp horder with hold | hnew
    · obtain ⟨quantity, hmem⟩ := h order hold
      exact ⟨quantity, List.mem_append_left _ hmem⟩
    · rw [List.mem_singleton.mp hnew]
      exact ⟨quantity, by simp⟩
  | cancel hid hlive =>
    intro order horder
    obtain ⟨quantity, hmem⟩ := h order (hlive.mem_iff.mpr (List.mem_cons_of_mem _ horder))
    exact ⟨quantity, List.mem_append_left _ hmem⟩

section Book

variable {T : SignedInt} {c : Clob} {emitted : List OutputEvent}

/-- What rests is live, with its side and its price. -/
theorem Streamed.live_of_rests (h : Streamed profile events g) (hlisted : Listed events g)
    (hfits : ∀ e ∈ events, e.Fits T) (hrun : Clob.run T {} events = .ok (c, emitted)) {o : RestingOrder}
    (ho : o ∈ c.restingOrders .buy ++ c.restingOrders .sell) : ⟨o.orderId, o.side, o.price⟩ ∈ g.live := by
  obtain ⟨c', emitted', levels, hrun', hc, huncancelled⟩ := run_uncancelled events hfits
  obtain ⟨rfl, rfl⟩ := ok_unique hrun hrun'
  obtain ⟨c', emitted', levels', hrun', hc', hbacked⟩ := run_backed events hfits
  obtain ⟨rfl, rfl⟩ := ok_unique hrun hrun'
  rw [hc.orders_eq] at ho
  have hkept := huncancelled h.stream o.orderId (List.mem_map_of_mem ho)
  rw [hc.bookOf_unique hc'] at ho
  obtain ⟨maker, hmaker, hrests⟩ := hbacked o ho
  have hkey := hrests.key_eq
  rw [key, Prod.mk.injEq, Prod.mk.injEq] at hkey
  obtain ⟨hid, hside, hprice⟩ := hkey
  have hlive : o.orderId ∈ g.live.map LiveResting.id := by
    rw [h.mem_live_iff]
    exact ⟨hid ▸ List.mem_filterMap.mpr ⟨_, hmaker, rfl⟩, hkept⟩
  obtain ⟨order, horder, horderId⟩ := List.mem_map.mp hlive
  obtain ⟨quantity, hadded⟩ := hlisted order horder
  obtain rfl := add_unique h.stream.nodup hadded hmaker (horderId.trans hid.symm)
  simp only at hid hside hprice
  rwa [← hid, ← hside, ← hprice]

/-- What is live and has not been filled rests: a cancel of it would be answered with what is left. -/
theorem Streamed.rests_of_live (h : Streamed profile events g) (hlisted : Listed events g)
    (hfits : ∀ e ∈ events, e.Fits T) (hidFits : ∀ order ∈ g.live, T.Fits order.id)
    (hrun : Clob.run T {} events = .ok (c, emitted)) {order : LiveResting} (horder : order ∈ g.live)
    (hunfilled : ∀ filled, .orderFilled ⟨order.id, filled⟩ ∉ emitted) :
    ∃ o ∈ c.restingOrders .buy ++ c.restingOrders .sell,
      o.orderId = order.id ∧ o.side = order.side ∧ o.price = order.price := by
  obtain ⟨hadded, hfirst⟩ := (h.mem_live_iff order.id).mp (List.mem_map_of_mem horder)
  have hstream := h.stream.concat_cancel hadded hfirst
  obtain ⟨c₀, emitted₀, c₁, emitted₁, hrun₀, -, -, hanswer⟩ := hstream.answers
    (T := T) (fun e he => (List.mem_append.mp he).elim (hfits e) fun hlast => by
      rw [List.mem_singleton.mp hlast]
      exact hidFits order horder) rfl
  obtain ⟨rfl, rfl⟩ := ok_unique hrun hrun₀
  obtain ⟨o, ho, hoid, -⟩ := (hanswer ⟨order.id⟩ rfl).2 hunfilled
  have hlive := h.live_of_rests hlisted hfits hrun ho
  have hsame := List.inj_on_of_nodup_map h.live_nodup hlive horder hoid
  exact ⟨o, ho, hoid, congrArg LiveResting.side hsame, congrArg LiveResting.price hsame⟩

end Book

/-! ### Many calls -/

variable [Doubles ρ] [Distributions ρ σ]

theorem yields_generate_listed (hprofile : profile.Fits) (hqty : profile.qtyMin ≤ profile.qtyMax)
    (hround : ∀ x : ρ, SignedInt.int64.Fits (Doubles.lround x))
    (hindex : ∀ n (rng : σ), (Distributions.uniformInt ρ n rng).1 ≤ n) {n : Nat}
    (hlisted : Listed events g) :
    Yields (generate profile n g events : Sampling σ (List InputEvent × OrderGenerator ρ))
      fun s => Listed s.1 s.2 := by
  induction n generalizing g events with
  | zero => exact yields_pure hlisted
  | succ n ih =>
    rw [generate]
    exact (yields_next hprofile hqty hround hindex).bind fun s hs => ih (hlisted.step hs)

/-- **The generator keeps track of the book.** Behind any number of calls, and for any draws, the orders
resting in a book that has been fed with the events are among the live ones, each once and with its side
and its price; and a live order that does not rest has been filled. -/
theorem generate_tracks (hprofile : profile.Fits) (hqty : profile.qtyMin ≤ profile.qtyMax)
    (hround : ∀ x : ρ, SignedInt.int64.Fits (Doubles.lround x))
    (hindex : ∀ n (rng : σ), (Distributions.uniformInt ρ n rng).1 ≤ n) (n : Nat) (hn : n < 2 ^ 63)
    (rng : σ) :
    ∃ events g rng' c emitted, generate profile n (create profile) [] rng = some ((events, g), rng') ∧
      Clob.run .int64 {} events = .ok (c, emitted) ∧ (g.live.map LiveResting.id).Nodup ∧
      (∀ o ∈ c.restingOrders .buy ++ c.restingOrders .sell, ⟨o.orderId, o.side, o.price⟩ ∈ g.live) ∧
      (c.restingOrders .buy ++ c.restingOrders .sell).length ≤ g.live.length ∧
      ∀ order ∈ g.live, (∀ filled, .orderFilled ⟨order.id, filled⟩ ∉ emitted) →
        ∃ o ∈ c.restingOrders .buy ++ c.restingOrders .sell,
          o.orderId = order.id ∧ o.side = order.side ∧ o.price = order.price := by
  obtain ⟨⟨events, g⟩, rng', hrun, hstreamed, hlength⟩ :=
    yields_generate hprofile hqty hround hindex (show ([] : List InputEvent).length + n < 2 ^ 63 by
      simpa using hn) (streamed_create profile) rng
  obtain ⟨r, rng'', hrun', hlisted⟩ := yields_generate_listed hprofile hqty hround hindex (n := n)
    (show Listed [] (create profile) from fun _ => nofun) rng
  rw [hrun] at hrun'
  cases hrun'
  rw [List.length_nil, Nat.zero_add] at hlength
  have hfits := hstreamed.fits (hlength ▸ hn)
  obtain ⟨c, emitted, levels, hbook, hc⟩ := run_represents events hfits
  have hlive : ∀ o ∈ c.restingOrders .buy ++ c.restingOrders .sell,
      ⟨o.orderId, o.side, o.price⟩ ∈ g.live := fun o ho => hstreamed.live_of_rests hlisted hfits hbook ho
  refine ⟨events, g, rng', c, emitted, hrun, hbook, hstreamed.live_nodup, hlive, ?_, ?_⟩
  · have hnodup : ((c.restingOrders .buy ++ c.restingOrders .sell).map RestingOrder.orderId).Nodup := by
      rw [hc.orders_eq]
      exact hc.valid.nodup
    have hsub : (c.restingOrders .buy ++ c.restingOrders .sell).map RestingOrder.orderId
        ⊆ g.live.map LiveResting.id := by
      intro id hid
      obtain ⟨o, ho, rfl⟩ := List.mem_map.mp hid
      exact List.mem_map.mpr ⟨_, hlive o ho, rfl⟩
    simpa using (hnodup.subperm hsub).length_le
  · intro order horder hunfilled
    refine hstreamed.rests_of_live hlisted hfits (fun order horder => ?_) hbook horder hunfilled
    obtain ⟨quantity, hadded⟩ := hlisted order horder
    exact (hfits _ hadded).1

theorem generate_tracks_still :
    ∃ events g rng' c emitted, generate stillMarket 3 (create stillMarket) [] () = some ((events, g), rng') ∧
      Clob.run .int64 {} events = .ok (c, emitted) ∧ (g.live.map LiveResting.id).Nodup ∧
      (∀ o ∈ c.restingOrders .buy ++ c.restingOrders .sell, ⟨o.orderId, o.side, o.price⟩ ∈ g.live) ∧
      (c.restingOrders .buy ++ c.restingOrders .sell).length ≤ g.live.length ∧
      ∀ order ∈ g.live, (∀ filled, .orderFilled ⟨order.id, filled⟩ ∉ emitted) →
        ∃ o ∈ c.restingOrders .buy ++ c.restingOrders .sell,
          o.orderId = order.id ∧ o.side = order.side ∧ o.price = order.price :=
  generate_tracks fits_stillMarket (by decide) fits_lround_rat (fun _ _ => Nat.zero_le _) 3 (by decide) ()

end OrderGenerator

end MatchingEngine
