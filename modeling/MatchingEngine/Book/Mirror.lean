import MatchingEngine.Book.Relabel
import MatchingEngine.Book.Run

/-!
# Buying and selling are mirror images

At a price `K` above all others, buying at `p` is the mirror image of selling at `K - p`: the better
price stays the better one. The mirror is a relabelling, and every function of the book commutes with
it, so a mirrored run emits what the run emits and leaves the mirrored book.
-/

namespace MatchingEngine

def mirror (K : Int) : Relabelling where
  side := Side.opposite
  price p := K - p
  tif := id
  compare s p q h := by
    cases s
    · exact sub_lt_sub_left h K
    · exact sub_lt_sub_left h K

/-- An add on the other side, at the mirrored price; everything else is kept. -/
def InputEvent.mirror (K : Int) : InputEvent → InputEvent
  | .addOrder event => .addOrder { event with side := event.side.opposite, price := K - event.price }
  | event => event

/-- The sides exchanged, and every price and every node mirrored. -/
def Clob.mirror (K : Int) (c : Clob) : Clob where
  bids := c.asks.relabel (MatchingEngine.mirror K)
  asks := c.bids.relabel (MatchingEngine.mirror K)
  lookup := c.lookup
  arena := relabelArena (MatchingEngine.mirror K) c.arena

variable {K : Int} {T : SignedInt}

theorem sideBook_mirror (c : Clob) (side : Side) :
    (c.mirror K).sideBook side.opposite = (c.sideBook side).relabel (mirror K) := by
  cases side <;> rfl

theorem setSideBook_mirror (c : Clob) (lookup : Int → Option Ptr) (arena : Heap OrderNode)
    {side : Side} (book : OrderBookSide side) :
    { c.mirror K with lookup, arena := relabelArena (mirror K) arena }.setSideBook
        (book.relabel (mirror K))
      = ({ c with lookup, arena }.setSideBook book).mirror K := by
  cases side <;> rfl

theorem fillableAtLimit_mirror (c : Clob) (side : Side) (event : AddOrderEvent) :
    (c.mirror K).fillableAtLimit T side.opposite (event.relabel (mirror K))
      = c.fillableAtLimit T side event := by
  rw [Clob.fillableAtLimit, Clob.fillableAtLimit, sideBook_mirror]
  exact congrArg (fun available => decide (event.quantity ≤ available))
    (fillableQuantity_relabel (mirror K) T (c.sideBook side.opposite) event.price event.quantity)

theorem mirror_restOrder (c : Clob) (side : Side) (residual : AddOrderEvent) :
    (c.restOrder T side residual).map (Prod.map id (Clob.mirror K))
      = (c.mirror K).restOrder T side.opposite (residual.relabel (mirror K)) := by
  have harena : (c.mirror K).arena.alloc (Clob.allocateRestingNode (residual.relabel (mirror K)))
      = relabelArena (mirror K) (c.arena.alloc (Clob.allocateRestingNode residual)) :=
    Heap.alloc_map (OrderNode.relabel (mirror K)) c.arena (Clob.allocateRestingNode residual)
  have hnode : (c.mirror K).arena.size = c.arena.size := Heap.size_map ..
  symm
  rw [Clob.restOrder, Clob.restOrder]
  simp only [harena, hnode, sideBook_mirror]
  rw [apply_ite (Except.map _)]
  refine ite_congr rfl (fun _ => ?_) fun _ => ?_
  · have hassign := relabel_assign (mirror K) (c.arena.alloc (Clob.allocateRestingNode residual))
      c.arena.size (f := fun n => { n with active := false }) fun _ => rfl
    exact bind_eq_map hassign fun _ => rfl
  · refine bind_eq_map (relabel_append (mirror K) T (c.sideBook side) _ _) fun appended => ?_
    exact congrArg (fun c => Except.ok (true, c)) (setSideBook_mirror c _ _ appended.1)

theorem mirror_addOrder (c : Clob) (side : Side) (event : AddOrderEvent) :
    (c.addOrder T side event).map (Prod.map (Clob.mirror K) id)
      = (c.mirror K).addOrder T side.opposite (event.relabel (mirror K)) := by
  symm
  rw [Clob.addOrder, Clob.addOrder, fillableAtLimit_mirror, apply_ite (Except.map _)]
  refine ite_congr rfl (fun _ => rfl) fun _ => ?_
  rw [sideBook_mirror]
  refine bind_eq_map (relabel_matchAgainst (mirror K) T (c.sideBook side.opposite) _) fun matched => ?_
  have hset := setSideBook_mirror (K := K) c matched.2.lookup matched.2.arena matched.1
  rw [apply_ite (Except.map _)]
  refine ite_congr rfl (fun _ => ?_) fun _ => ?_
  · exact congrArg (fun c => Except.ok (c, _)) hset
  rw [apply_ite (Except.map _)]
  refine ite_congr rfl (fun _ => ?_) fun _ => ?_
  · refine bind_eq_map ((mirror_restOrder _ side matched.2.incoming).trans
      (congrArg (Clob.restOrder T · _ _) hset.symm)) fun rested => ?_
    rw [apply_ite (Except.map _)]
    rfl
  · exact congrArg (fun c => Except.ok (c, _)) hset

theorem mirror_cancelResting (c : Clob) (side : Side) (node : Ptr) (orderId cancelled : Int) :
    (c.cancelResting T side node orderId cancelled).map (Prod.map (Clob.mirror K) id)
      = (c.mirror K).cancelResting T side.opposite node orderId cancelled := by
  symm
  rw [Clob.cancelResting, Clob.cancelResting, sideBook_mirror]
  refine bind_eq_map (relabel_detach (mirror K) T (c.sideBook side) _ _) fun detached => ?_
  refine bind_eq_map (relabel_assign (mirror K) _ _ fun _ => rfl) fun arena => ?_
  exact congrArg (fun c => Except.ok (c, _)) (setSideBook_mirror c _ _ detached.1)

theorem mirror_onAddOrder (c : Clob) {event : AddOrderEvent} (hpos : 0 < event.price)
    (hlt : event.price < K) :
    (c.onAddOrder T event).map (Prod.map (Clob.mirror K) id)
      = (c.mirror K).onAddOrder T (event.relabel (mirror K)) := by
  have hprice : (event.relabel (mirror K)).price ≤ 0 ↔ event.price ≤ 0 :=
    iff_of_false (not_le.mpr (sub_pos.mpr hlt)) (not_le.mpr hpos)
  symm
  rw [Clob.onAddOrder, Clob.onAddOrder, apply_ite (Except.map _)]
  refine ite_congr rfl (fun _ => rfl) fun _ => ?_
  rw [apply_ite (Except.map _)]
  refine ite_congr rfl (fun _ => rfl) fun _ => ?_
  rw [apply_ite (Except.map _)]
  refine ite_congr (propext hprice) (fun _ => rfl) fun _ => ?_
  exact (mirror_addOrder c event.side event).symm

theorem mirror_onCancelOrder (c : Clob) (event : CancelOrderEvent) :
    (c.onCancelOrder T event).map (Prod.map (Clob.mirror K) id)
      = (c.mirror K).onCancelOrder T event := by
  symm
  rw [Clob.onCancelOrder, Clob.onCancelOrder, apply_ite (Except.map _)]
  refine ite_congr rfl (fun _ => rfl) fun _ => ?_
  have hlookup : (c.mirror K).lookup = c.lookup := rfl
  rw [hlookup]
  cases c.lookup event.orderId with
  | none => rfl
  | some it =>
    refine bind_eq_map (relabel_deref (mirror K) c.arena it) fun node => ?_
    rw [apply_ite (Except.map _)]
    refine ite_congr rfl (fun _ => rfl) fun _ => ?_
    exact (mirror_cancelResting c node.side it event.orderId node.quantity).symm

theorem mirror_onInput (c : Clob) {event : InputEvent}
    (hprices : ∀ add, event = .addOrder add → 0 < add.price ∧ add.price < K) :
    (c.onInput T event).map (Prod.map (Clob.mirror K) id)
      = (c.mirror K).onInput T (event.mirror K) := by
  cases event with
  | addOrder event => exact mirror_onAddOrder c (hprices event rfl).1 (hprices event rfl).2
  | cancelOrder event => exact mirror_onCancelOrder c event
  | shutdown => rfl

theorem mirror_run (c : Clob) {events : List InputEvent}
    (hprices : ∀ add, .addOrder add ∈ events → 0 < add.price ∧ add.price < K) :
    (c.run T events).map (Prod.map (Clob.mirror K) id)
      = (c.mirror K).run T (events.map (InputEvent.mirror K)) := by
  symm
  induction events generalizing c with
  | nil => rfl
  | cons event events ih =>
    rw [List.map_cons, Clob.run, Clob.run]
    have hinput : ∀ add, event = .addOrder add → 0 < add.price ∧ add.price < K := by
      intro add heq
      exact hprices add (heq ▸ List.mem_cons_self ..)
    refine bind_eq_map (mirror_onInput c hinput) fun s => ?_
    have hevents := ih s.1 fun add hadd => hprices add (List.mem_cons_of_mem _ hadd)
    exact bind_eq_map hevents.symm fun _ => rfl

/-- **Symmetry of the sides.** After every input of a run over prices between `0` and `K`, the run of
the mirrored inputs has emitted the same events and holds the mirror image of the book. -/
theorem run_mirror (events : List InputEvent) (hfits : ∀ event ∈ events, event.Fits T)
    (hprices : ∀ add, .addOrder add ∈ events → 0 < add.price ∧ add.price < K) :
    ∀ before, before <+: events → ∃ c emitted, Clob.run T {} before = .ok (c, emitted) ∧
      Clob.run T {} (before.map (InputEvent.mirror K)) = .ok (c.mirror K, emitted) := by
  intro before hinitial
  obtain ⟨c, emitted, levels, hrun, -⟩ := run_represents before fun e he =>
    hfits e (hinitial.subset he)
  refine ⟨c, emitted, hrun, ?_⟩
  have hmirror := mirror_run (T := T) {} fun add hadd => hprices add (hinitial.subset hadd)
  rw [hrun] at hmirror
  exact hmirror.symm

/-- A sell that sweeps two bids and carries the id of one, and a cancel, mirrored at 201. -/
theorem run_mirror_sweep :
    ∃ c emitted, Clob.run .int64 {} [.addOrder ⟨1, .buy, 5, 100, .gtc⟩, .addOrder ⟨2, .buy, 4, 99, .gtc⟩,
        .addOrder ⟨2, .sell, 7, 99, .gtc⟩, .cancelOrder ⟨2⟩] = .ok (c, emitted) ∧
      Clob.run .int64 {} ([.addOrder ⟨1, .buy, 5, 100, .gtc⟩, .addOrder ⟨2, .buy, 4, 99, .gtc⟩,
        .addOrder ⟨2, .sell, 7, 99, .gtc⟩, .cancelOrder ⟨2⟩].map (InputEvent.mirror 201))
          = .ok (c.mirror 201, emitted) :=
  run_mirror _ (by decide +kernel) (by simp) _ List.prefix_rfl

end MatchingEngine
