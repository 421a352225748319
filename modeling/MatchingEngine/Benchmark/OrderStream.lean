import MatchingEngine.Book.Finality

/-!
# Order streams

An order stream has adds of new orders with the ids 1, 2, 3, …, all GTC and with positive prices and
quantities, and cancels each order at most once, some time after its add. The book rejects no add of
such a stream, and a cancel finds its order unless that has been filled.
-/

namespace MatchingEngine

open Divisible PriorityBook

/-- What an order stream asks of its events, whatever the grid of the prices. -/
structure OrderStream (events : List InputEvent) : Prop where
  addIds_eq : addIds events = (List.range (addIds events).length).map fun i : Nat => (i : Int) + 1
  adds : ∀ add, .addOrder add ∈ events → 0 < add.quantity ∧ 0 < add.price ∧ add.tif = .gtc
  cancels : ∀ before cancel after, events = before ++ .cancelOrder cancel :: after →
    cancel.orderId ∈ addIds before ∧ .cancelOrder cancel ∉ before
  not_shutdown : .shutdown ∉ events

namespace OrderStream

variable {events : List InputEvent}

theorem mem_addIds_iff (h : OrderStream events) {id : Int} :
    id ∈ addIds events ↔ 0 < id ∧ id ≤ (addIds events).length := by
  rw [h.addIds_eq, List.mem_map, List.length_map, List.length_range]
  constructor
  · rintro ⟨i, hi, rfl⟩
    have := List.mem_range.mp hi
    omega
  · intro hbounds
    obtain ⟨hpos, hle⟩ := hbounds
    exact ⟨(id - 1).toNat, List.mem_range.mpr (by omega), by omega⟩

theorem nodup (h : OrderStream events) : (addIds events).Nodup := by
  rw [h.addIds_eq]
  apply List.nodup_range.map
  intro i j hij
  simpa using hij

/-- What is cancelled has been added. -/
theorem added_of_cancel (h : OrderStream events) {id : Int} (hmem : .cancelOrder ⟨id⟩ ∈ events) :
    id ∈ addIds events := by
  obtain ⟨before, after, rfl⟩ := List.append_of_mem hmem
  rw [addIds_append]
  exact List.mem_append_left _ (h.cancels before ⟨id⟩ after rfl).1

theorem of_prefix {before : List InputEvent} (h : OrderStream events) (hinitial : before <+: events) :
    OrderStream before := by
  obtain ⟨after, rfl⟩ := hinitial
  refine ⟨?_, fun add hadd => h.adds add (List.mem_append_left _ hadd), ?_,
    fun hmem => h.not_shutdown (List.mem_append_left _ hmem)⟩
  · have hall := h.addIds_eq
    rw [addIds_append, List.length_append, List.range_add, List.map_append] at hall
    exact (List.append_inj hall (by simp)).1
  · intro before cancel after' heq
    exact h.cancels before cancel (after' ++ after) (by rw [heq]; simp)

theorem empty : OrderStream [] := by
  refine ⟨rfl, by simp, ?_, by simp⟩
  intro before cancel after heq
  simp at heq

/-- Where a cancel stands in an extended stream. -/
theorem cancels_concat (h : OrderStream events) {event : InputEvent}
    (hlast : ∀ cancel, event = .cancelOrder cancel →
      cancel.orderId ∈ addIds events ∧ .cancelOrder cancel ∉ events) :
    ∀ before cancel after, events ++ [event] = before ++ .cancelOrder cancel :: after →
      cancel.orderId ∈ addIds before ∧ .cancelOrder cancel ∉ before := by
  intro before cancel after heq
  rcases List.eq_nil_or_concat after with rfl | ⟨after, last, rfl⟩
  · obtain ⟨rfl, hevent⟩ := List.append_inj' heq rfl
    exact hlast cancel (List.singleton_inj.mp hevent)
  · have hsplit : events ++ [event] = (before ++ .cancelOrder cancel :: after) ++ [last] := by
      rw [heq]
      simp
    exact h.cancels before cancel after (List.append_inj' hsplit rfl).1

theorem concat_add (h : OrderStream events) {add : AddOrderEvent}
    (hid : add.orderId = (addIds events).length + 1)
    (hadd : 0 < add.quantity ∧ 0 < add.price ∧ add.tif = .gtc) :
    OrderStream (events ++ [.addOrder add]) := by
  refine ⟨?_, ?_, h.cancels_concat nofun, ?_⟩
  · have hids : addIds (events ++ [.addOrder add]) = addIds events ++ [add.orderId] := by
      rw [addIds_append]
      rfl
    rw [hids, List.length_append, List.length_singleton, List.range_succ, List.map_append,
      ← h.addIds_eq, List.map_singleton, hid]
  · intro add' hmem
    rcases List.mem_append.mp hmem with hmem | hmem
    · exact h.adds add' hmem
    · cases List.mem_singleton.mp hmem
      exact hadd
  · intro hmem
    rcases List.mem_append.mp hmem with hmem | hmem
    · exact h.not_shutdown hmem
    · cases List.mem_singleton.mp hmem

theorem concat_cancel (h : OrderStream events) {id : Int} (hadded : id ∈ addIds events)
    (hfirst : .cancelOrder ⟨id⟩ ∉ events) : OrderStream (events ++ [.cancelOrder ⟨id⟩]) := by
  refine ⟨?_, ?_, h.cancels_concat ?_, ?_⟩
  · have hids : addIds (events ++ [.cancelOrder ⟨id⟩]) = addIds events := by
      rw [addIds_append]
      exact List.append_nil _
    rw [hids]
    exact h.addIds_eq
  · intro add hmem
    rcases List.mem_append.mp hmem with hmem | hmem
    · exact h.adds add hmem
    · cases List.mem_singleton.mp hmem
  · intro cancel heq
    cases heq
    exact ⟨hadded, hfirst⟩
  · intro hmem
    rcases List.mem_append.mp hmem with hmem | hmem
    · exact h.not_shutdown hmem
    · cases List.mem_singleton.mp hmem

end OrderStream

/-! ### What the book answers -/

section Step

variable {b : PriorityBook} {fillable : Bool}

/-- The events of an add that is filled or comes to rest. -/
def Accepted (b : PriorityBook) (add : AddOrderEvent) (emitted : List OutputEvent) : Prop :=
  ∃ terminal, emitted
      = fillEvents add.orderId add.quantity (b.makers add.side add.price) ++ [terminal] ∧
    ((∃ filled, terminal = .orderFilled ⟨add.orderId, filled⟩) ∨
      ∃ filled rest, terminal = .orderResting ⟨add.orderId, filled, rest⟩)

/-- An add of a new id is filled or comes to rest. -/
theorem accepted_onInput (h : b.Valid) {add : AddOrderEvent} (hid : 0 < add.orderId)
    (hadd : 0 < add.quantity ∧ 0 < add.price ∧ add.tif = .gtc)
    (hfresh : add.orderId ∉ b.orders.map RestingOrder.orderId) :
    Accepted b add (b.onInput fillable (.addOrder add)).2 := by
  have hvalid : b.onInput fillable (.addOrder add) = b.addOrder fillable add := by
    simp only [PriorityBook.onInput, PriorityBook.onAddOrder, if_neg (not_le.mpr hid),
      if_neg (not_le.mpr hadd.1), if_neg (not_le.mpr hadd.2.1)]
  rw [hvalid]
  apply addOrder_cases (P := fun _ emitted => Accepted b add emitted)
  · intro hfok
    simp [hadd.2.2] at hfok
  · intro _
    exact ⟨_, rfl, Or.inl ⟨_, rfl⟩⟩
  · intro _ _ hdup
    exact absurd (sweep_orderIds_subset h _ _ _ hdup) hfresh
  · intro _ _ _
    exact ⟨_, rfl, Or.inr ⟨_, _, rfl⟩⟩
  · intro _ _ hne
    exact absurd hadd.2.2 hne

variable {add : AddOrderEvent} {emitted : List OutputEvent}

theorem Accepted.not_rejected (h : Accepted b add emitted) (rejection : OrderRejectedEvent) :
    .orderRejected rejection ∉ emitted := by
  obtain ⟨terminal, rfl, hterminal⟩ := h
  intro hmem
  rcases List.mem_append.mp hmem with hmem | hmem
  · exact orderRejected_not_mem_fillEvents _ hmem
  · rw [← List.mem_singleton.mp hmem] at hterminal
    simp at hterminal

theorem Accepted.not_cancelled (h : Accepted b add emitted) (cancelled : OrderCancelledEvent) :
    .orderCancelled cancelled ∉ emitted := by
  obtain ⟨terminal, rfl, hterminal⟩ := h
  intro hmem
  rcases List.mem_append.mp hmem with hmem | hmem
  · exact orderCancelled_not_mem_fillEvents _ hmem
  · rw [← List.mem_singleton.mp hmem] at hterminal
    simp at hterminal

end Step

/-! ### Runs -/

/-- The order has been filled, or rests unless it has been closed since. -/
def Placed (id : Int) (emitted : List OutputEvent) : Prop :=
  ∃ e ∈ emitted, e.Closes id ∨ ∃ filled rest, e = .orderResting ⟨id, filled, rest⟩

theorem Placed.mono {id : Int} {emitted later : List OutputEvent} (h : Placed id emitted) :
    Placed id (emitted ++ later) := by
  obtain ⟨e, he, hplaced⟩ := h
  exact ⟨e, List.mem_append_left _ he, hplaced⟩

section Run

variable {T : SignedInt} {events : List InputEvent}

theorem OrderStream.accepted {add : AddOrderEvent} (h : OrderStream (events ++ [.addOrder add]))
    {b : PriorityBook} {fillable : Bool} (hb : b.Valid)
    (hadded : b.orders.map RestingOrder.orderId ⊆ addIds events) :
    Accepted b add (b.onInput fillable (.addOrder add)).2 := by
  have hlast : .addOrder add ∈ events ++ [.addOrder add] :=
    List.mem_append_right _ (List.mem_singleton_self _)
  have hmem : add.orderId ∈ addIds (events ++ [.addOrder add]) := by
    rw [addIds_append]
    exact List.mem_append_right _ (List.mem_singleton_self _)
  apply accepted_onInput hb (h.mem_addIds_iff.mp hmem).1 (h.adds add hlast)
  intro hin
  have hnodup := h.nodup
  rw [addIds_append, List.nodup_append] at hnodup
  exact hnodup.2.2 _ (hadded hin) _ (List.mem_singleton_self _) rfl

/-- In the run of an order stream every add is placed, and only cancels cancel. -/
theorem run_placed (events : List InputEvent) (hfits : ∀ event ∈ events, event.Fits T) :
    ∃ c emitted levels, Clob.run T {} events = .ok (c, emitted) ∧ Represents T c levels ∧
      (OrderStream events →
        (bookOf levels).orders.map RestingOrder.orderId ⊆ addIds events ∧
        (∀ id ∈ addIds events, Placed id emitted) ∧
        ∀ cancelled, .orderCancelled cancelled ∈ emitted →
          .cancelOrder ⟨cancelled.orderId⟩ ∈ events) := by
  apply run_induction (P := fun events emitted _ levels => OrderStream events →
    (bookOf levels).orders.map RestingOrder.orderId ⊆ addIds events ∧
      (∀ id ∈ addIds events, Placed id emitted) ∧
      ∀ cancelled, .orderCancelled cancelled ∈ emitted → .cancelOrder ⟨cancelled.orderId⟩ ∈ events)
    _ _ events hfits
  · intro _
    simp [PriorityBook.orders, bookOf, ordersOf, addIds]
  intro events emitted c levels event c' levels' hc hplaced _ hbecomes hstream
  obtain ⟨hadded, hplaced, hcancels⟩ := hplaced (hstream.of_prefix (List.prefix_append ..))
  have hlast : event ∈ events ++ [event] := List.mem_append_right _ (List.mem_singleton_self _)
  have haccepted : ∀ add, event = .addOrder add →
      Accepted (bookOf levels) add ((bookOf levels).onInput (c.probe T event) event).2 := by
    intro add heq
    subst heq
    exact hstream.accepted hc.valid hadded
  refine ⟨?_, ?_, ?_⟩
  · rw [hbecomes.book_eq, addIds_append, addIds_singleton]
    intro id hid
    have hmem := orderIds_onInput hc.valid (c.probe T event) event hid
    exact List.mem_append.mpr ((List.mem_append.mp hmem).imp_left (hadded ·))
  · intro id hid
    rw [addIds_append, addIds_singleton] at hid
    rcases List.mem_append.mp hid with hid | hid
    · exact (hplaced id hid).mono
    · cases event with
      | addOrder add =>
        obtain rfl : id = add.orderId := List.mem_singleton.mp hid
        obtain ⟨terminal, hemitted, hterminal⟩ := haccepted add rfl
        refine ⟨terminal, ?_, ?_⟩
        · rw [hemitted]
          simp
        · refine hterminal.imp_left ?_
          intro hfilled
          obtain ⟨filled, heq⟩ := hfilled
          rw [heq]
          rfl
      | cancelOrder cancel => exact absurd hid List.not_mem_nil
      | shutdown => exact absurd hid List.not_mem_nil
  · intro cancelled hmem
    rcases List.mem_append.mp hmem with hmem | hmem
    · exact List.mem_append_left _ (hcancels cancelled hmem)
    · cases event with
      | addOrder add => exact absurd hmem ((haccepted add rfl).not_cancelled cancelled)
      | shutdown => exact absurd hmem List.not_mem_nil
      | cancelOrder cancel =>
        have hid : cancelled.orderId = cancel.orderId := by
          refine @onCancelOrder_cases (fun _ emitted => .orderCancelled cancelled ∈ emitted → _)
            (bookOf levels) cancel ?_ ?_ hmem
          · intro rejectCode hmem
            cases List.mem_singleton.mp hmem
          · intro o _ hoid hmem
            cases List.mem_singleton.mp hmem
            exact hoid
        rw [hid]
        exact hlast

/-- **The book on an order stream.** No add is rejected; a cancel is answered with UNK if its order has
been filled, and otherwise with what is left of it. -/
theorem OrderStream.answers (h : OrderStream events) (hfits : ∀ event ∈ events, event.Fits T)
    {before after : List InputEvent} {event : InputEvent} (hsplit : events = before ++ event :: after) :
    ∃ c₀ emitted₀ c₁ emitted₁, Clob.run T {} before = .ok (c₀, emitted₀) ∧
      c₀.onInput T event = .ok (c₁, emitted₁) ∧
      (∀ add, event = .addOrder add → ∀ rejection, .orderRejected rejection ∉ emitted₁) ∧
      ∀ cancel, event = .cancelOrder cancel →
        ((∃ filled, .orderFilled ⟨cancel.orderId, filled⟩ ∈ emitted₀) →
          emitted₁ = [.orderRejected ⟨cancel.orderId, .unknownOrderId⟩]) ∧
        ((∀ filled, .orderFilled ⟨cancel.orderId, filled⟩ ∉ emitted₀) →
          ∃ o ∈ c₀.restingOrders .buy ++ c₀.restingOrders .sell, o.orderId = cancel.orderId ∧
            emitted₁ = [.orderCancelled ⟨cancel.orderId, 0, o.quantity, .userRequest⟩]) := by
  have hinitial : before ++ [event] <+: events := ⟨after, by rw [hsplit]; simp⟩
  have hstream := h.of_prefix hinitial
  have hbefore := hstream.of_prefix (List.prefix_append ..)
  have hfitsBefore : ∀ e ∈ before, e.Fits T := fun e he =>
    hfits e (hinitial.subset (List.mem_append_left _ he))
  have hevent : event.Fits T :=
    hfits event (hinitial.subset (List.mem_append_right _ (List.mem_singleton_self _)))
  obtain ⟨c₀, emitted₀, levels₀, hrun₀, hc₀, hplaced⟩ := run_placed before hfitsBefore
  obtain ⟨hadded, hplaced, hcancels⟩ := hplaced hbefore
  obtain ⟨c₁, levels₁, hinput, -⟩ := hc₀.onInput hevent
  refine ⟨c₀, emitted₀, c₁, _, hrun₀, hinput, ?_, ?_⟩
  · intro add heq
    subst heq
    exact (hstream.accepted hc₀.valid hadded).not_rejected
  intro cancel heq
  subst heq
  obtain ⟨hmem, hfirst⟩ := hstream.cancels before cancel [] rfl
  have hpos : 0 < cancel.orderId := (hbefore.mem_addIds_iff.mp hmem).1
  refine ⟨?_, ?_⟩
  · intro ⟨filled, hfilled⟩
    have hout := absent_of_closed hrun₀ hc₀ hfitsBefore hbefore.nodup hfilled
      (show OutputEvent.Closes cancel.orderId (.orderFilled ⟨cancel.orderId, filled⟩) from rfl)
    exact (ok_unique hinput (hc₀.cancel_absent hpos hout)).2
  · intro hunfilled
    have hopen : ∀ e ∈ emitted₀, ¬ e.Closes cancel.orderId := by
      intro e he hcloses
      cases e with
      | orderFilled e => exact hunfilled e.filledQuantity (hcloses ▸ he)
      | orderCancelled e =>
        have hid : e.orderId = cancel.orderId := hcloses
        have hcancelled := hcancels e he
        rw [hid] at hcancelled
        exact hfirst hcancelled
      | trade e => exact hcloses
      | orderResting e => exact hcloses
      | orderRejected e => exact hcloses
      | shutdown => exact hcloses
    obtain ⟨e, he, hplaced⟩ := hplaced cancel.orderId hmem
    obtain ⟨filled, rest, rfl⟩ := hplaced.resolve_left (hopen e he)
    obtain ⟨xs, ys, hemitted⟩ := List.append_of_mem he
    obtain ⟨o, ho, hoid⟩ := rests_of_open hrun₀ hc₀ hfitsBefore hbefore.nodup hemitted fun e he =>
      hopen e (hemitted ▸ List.mem_append_right _ (List.mem_cons_of_mem _ he))
    obtain ⟨c', hcancel⟩ := hc₀.cancel_present hpos hevent ho hoid
    refine ⟨o, ?_, hoid, (ok_unique hinput hcancel).2⟩
    rwa [hc₀.restingOrders_eq, hc₀.restingOrders_eq]

end Run

end MatchingEngine
