import MatchingEngine.Book.Represents

/-!
# Matching does not look at labels

The side, the price and the time in force of an order are labels to the matching loops: they are
handed on, and prices are compared in the order of a side. A relabelling changes them everywhere at
once and keeps those comparisons. Each function below then does to the relabelled book what it does
to the book, faults included.
-/

namespace MatchingEngine

/-- A change of labels under which a better price stays a better one. -/
structure Relabelling where
  side : Side → Side
  price : Int → Int
  tif : Tif → Tif
  compare : ∀ s p q, RestingLevelsCompare s p q → RestingLevelsCompare (side s) (price p) (price q)

section Labels

variable (r : Relabelling)

def OrderNode.relabel (node : OrderNode) : OrderNode :=
  { node with side := r.side node.side, price := r.price node.price }

@[simp] theorem relabel_active (node : OrderNode) : (node.relabel r).active = node.active := rfl

def AddOrderEvent.relabel (event : AddOrderEvent) : AddOrderEvent :=
  { event with side := r.side event.side, price := r.price event.price, tif := r.tif event.tif }

def relabelArena (arena : Heap OrderNode) : Heap OrderNode := arena.map (OrderNode.relabel r)

def MatchState.relabel (s : MatchState) : MatchState :=
  { s with arena := relabelArena r s.arena, incoming := s.incoming.relabel r }

/-- The prices of a side, in its order. -/
def Relabelling.prices (side : Side) :
    RestingLevelsCompare side ↪r RestingLevelsCompare (r.side side) :=
  RelEmbedding.ofMonotone r.price (r.compare side)

def OrderBookSide.relabel {side : Side} (book : OrderBookSide side) : OrderBookSide (r.side side) :=
  ⟨book.levels.mapKeys (r.prices side)⟩

theorem crosses_relabel (side : Side) (p q : Int) :
    Crosses (r.side side) (r.price p) (r.price q) ↔ Crosses side p q :=
  not_congr (r.prices side).map_rel_iff

end Labels

/-- What both do to corresponding results, they do to corresponding computations. -/
theorem bind_eq_map {ε α α' β β' : Type} {x : Except ε α} {x' : Except ε α'} {f : α → α'} {g : β → β'}
    {k : α → Except ε β} {k' : α' → Except ε β'} (hx : x.map f = x')
    (hk : ∀ a, k' (f a) = (k a).map g) : (x' >>= k') = (x >>= k).map g := by
  rw [← hx]
  cases x with
  | error fault => rfl
  | ok a => exact hk a

section Pointers

variable (r : Relabelling) (arena : Heap OrderNode) (p : Ptr)

theorem relabel_deref : (deref arena p).map (OrderNode.relabel r) = deref (relabelArena r arena) p := by
  rw [deref, deref, relabelArena, Heap.read_map]
  cases arena.read p <;> rfl

variable {f : OrderNode → OrderNode}

theorem relabel_assign (hcomm : ∀ node : OrderNode, f (node.relabel r) = (f node).relabel r) :
    (assign arena p f).map (relabelArena r) = assign (relabelArena r arena) p f := by
  rw [assign, assign, relabelArena, Heap.read_map, Heap.modify_map hcomm]
  cases arena.read p <;> rfl

theorem relabel_assign_map (level : PriceLevel)
    (hcomm : ∀ node : OrderNode, f (node.relabel r) = (f node).relabel r) :
    ((assign arena p f).map (level, ·)).map (Prod.map id (relabelArena r))
      = (assign (relabelArena r arena) p f).map (level, ·) := by
  rw [← relabel_assign r arena p hcomm]
  cases assign arena p f <;> rfl

theorem relabel_unlinkFromLevel (level : PriceLevel) :
    (unlinkFromLevel level arena p).map (Prod.map id (relabelArena r))
      = unlinkFromLevel level (relabelArena r arena) p := by
  symm
  rw [unlinkFromLevel, unlinkFromLevel]
  refine bind_eq_map (relabel_deref ..) fun node => ?_
  have hself : ∀ (level : PriceLevel) (arena : Heap OrderNode),
      (do
        let arena ← assign (relabelArena r arena) p fun n =>
          { n with prevSamePrice := none, nextSamePrice := none }
        return (level, arena))
      = (do
        let arena ← assign arena p fun n => { n with prevSamePrice := none, nextSamePrice := none }
        return (level, arena) : Except Fault _).map (Prod.map id (relabelArena r)) := by
    intro level arena
    exact bind_eq_map (relabel_assign _ _ _ fun _ => rfl) fun _ => rfl
  simp only [OrderNode.relabel]
  cases node.prevSamePrice with
  | none =>
    cases node.nextSamePrice with
    | none => exact hself _ _
    | some next =>
      simp only [ok_bind]
      exact bind_eq_map (relabel_assign_map _ _ _ _ fun _ => rfl) fun s => hself _ _
  | some prev =>
    refine bind_eq_map (relabel_assign_map _ _ _ _ fun _ => rfl) fun s => ?_
    cases node.nextSamePrice with
    | none => exact hself _ _
    | some next => exact bind_eq_map (relabel_assign_map _ _ _ _ fun _ => rfl) fun s => hself _ _

end Pointers

section Sides

variable (r : Relabelling) (T : SignedInt) {side : Side} (book : OrderBookSide side)
  (arena : Heap OrderNode) (p : Ptr)

theorem find?_relabel (price : Int) :
    (book.relabel r).levels.find? (r.price price) = book.levels.find? price :=
  OrderedMap.find?_mapKeys (r.prices side) book.levels price

theorem relabel_put (price : Int) (level : PriceLevel) :
    OrderBookSide.relabel r ⟨book.levels.put price level⟩
      = ⟨(book.relabel r).levels.put (r.price price) level⟩ :=
  congrArg OrderBookSide.mk (OrderedMap.put_mapKeys (r.prices side) book.levels price level).symm

theorem relabel_erase (price : Int) :
    OrderBookSide.relabel r ⟨book.levels.erase price⟩
      = ⟨(book.relabel r).levels.erase (r.price price)⟩ :=
  congrArg OrderBookSide.mk (OrderedMap.erase_mapKeys (r.prices side) book.levels price).symm

theorem relabel_append :
    (book.append T arena p).map (Prod.map (OrderBookSide.relabel r) (relabelArena r))
      = (book.relabel r).append T (relabelArena r arena) p := by
  symm
  rw [OrderBookSide.append, OrderBookSide.append]
  refine bind_eq_map (relabel_deref ..) fun node => ?_
  simp only [OrderNode.relabel, find?_relabel, ← relabel_put]
  split
  · exact bind_eq_map (relabel_assign _ _ _ fun _ => rfl) fun _ => rfl
  · refine bind_eq_map (relabel_assign _ _ _ fun _ => rfl) fun arena => ?_
    exact bind_eq_map (relabel_assign _ _ _ fun _ => rfl) fun _ => rfl

theorem relabel_detach :
    (book.detach T arena p).map (Prod.map (OrderBookSide.relabel r) (relabelArena r))
      = (book.relabel r).detach T (relabelArena r arena) p := by
  symm
  rw [OrderBookSide.detach, OrderBookSide.detach]
  refine bind_eq_map (relabel_deref ..) fun node => ?_
  simp only [OrderNode.relabel, find?_relabel, ← relabel_put, ← relabel_erase]
  split
  · rfl
  · refine bind_eq_map (relabel_unlinkFromLevel ..) fun s => ?_
    rw [apply_ite (Except.map _)]
    rfl

theorem fillableQuantity_relabel (limitPrice need : Int) :
    (book.relabel r).fillableQuantity T (r.price limitPrice) need
      = book.fillableQuantity T limitPrice need := by
  change OrderBookSide.fillableFrom T (r.side side) (r.price limitPrice) need 0
    (book.levels.entries.map (Prod.map r.price id)) = OrderBookSide.fillableFrom ..
  generalize (0 : Int) = available
  induction book.levels.entries generalizing available with
  | nil => rfl
  | cons entry entries ih =>
    rw [List.map_cons, Prod.map_apply, OrderBookSide.fillableFrom, OrderBookSide.fillableFrom, id_eq]
    simp only [crosses_relabel, ih]

end Sides

section Matching

variable (r : Relabelling) (T : SignedInt)

theorem relabel_retireResting (level : PriceLevel) (node : Ptr) (s : MatchState) :
    (retireResting level node s).map (Prod.map id (MatchState.relabel r))
      = retireResting level node (s.relabel r) := by
  symm
  rw [retireResting, retireResting]
  refine bind_eq_map (relabel_unlinkFromLevel ..) fun s => ?_
  refine bind_eq_map (relabel_assign _ _ _ fun _ => rfl) fun arena => ?_
  exact bind_eq_map (relabel_deref ..) fun _ => rfl

theorem relabel_matchLevelStep (resting : Ptr) (level : PriceLevel) (s : MatchState) :
    (matchLevelStep T resting level s).map (Prod.map id (Prod.map id (MatchState.relabel r)))
      = matchLevelStep T resting level (s.relabel r) := by
  symm
  rw [matchLevelStep, matchLevelStep]
  refine bind_eq_map (relabel_deref ..) fun node => ?_
  rw [apply_ite (Except.map _)]
  refine ite_congr rfl (fun _ => rfl) fun _ => ?_
  rw [apply_ite (Except.map _)]
  refine ite_congr rfl (fun _ => ?_) fun _ => ?_
  · exact bind_eq_map (relabel_retireResting ..) fun _ => rfl
  · exact bind_eq_map (relabel_assign _ _ _ fun _ => rfl) fun _ => rfl

theorem relabel_matchLevelLoop (fuel : Nat) (cursor : Option Ptr) (level : PriceLevel)
    (s : MatchState) :
    (matchLevelLoop T fuel cursor level s).map (Prod.map id (MatchState.relabel r))
      = matchLevelLoop T fuel cursor level (s.relabel r) := by
  induction fuel generalizing cursor level s with
  | zero =>
    cases cursor with
    | none => rfl
    | some resting =>
      rw [matchLevelLoop, matchLevelLoop, apply_ite (Except.map _)]
      rfl
  | succ fuel ih =>
    cases cursor with
    | none => rfl
    | some resting =>
      rw [matchLevelLoop, matchLevelLoop, apply_ite (Except.map _)]
      refine ite_congr rfl (fun _ => ?_) fun _ => rfl
      exact (bind_eq_map (relabel_matchLevelStep ..) fun _ => (ih ..).symm).symm

theorem relabel_matchLevel (level : PriceLevel) (s : MatchState) :
    (matchLevel T level s).map (Prod.map id (MatchState.relabel r))
      = matchLevel T level (s.relabel r) := by
  rw [matchLevel, relabel_matchLevelLoop]
  exact congrArg (matchLevelLoop T · _ _ _) (Heap.size_map ..).symm

variable {side : Side}

theorem bestLevel_relabel (book : OrderBookSide side) :
    (book.relabel r).bestLevel = book.bestLevel.map (Prod.map r.price id) :=
  OrderedMap.first?_mapKeys (r.prices side) book.levels

theorem relabel_popBestLevel (book : OrderBookSide side) :
    book.popBestLevel.relabel r = (book.relabel r).popBestLevel :=
  congrArg OrderBookSide.mk (OrderedMap.eraseFirst_mapKeys (r.prices side) book.levels).symm

theorem relabel_matchAgainstLoop (fuel : Nat) (opposite : OrderBookSide side) (s : MatchState) :
    (matchAgainstLoop T fuel opposite s).map
        (Prod.map (OrderBookSide.relabel r) (MatchState.relabel r))
      = matchAgainstLoop T fuel (opposite.relabel r) (s.relabel r) := by
  symm
  induction fuel generalizing opposite s with
  | zero =>
    rw [matchAgainstLoop, matchAgainstLoop, apply_ite (Except.map _), bestLevel_relabel]
    refine ite_congr rfl (fun _ => ?_) fun _ => rfl
    cases opposite.bestLevel with
    | none => rfl
    | some entry =>
      rw [apply_ite (Except.map _)]
      exact ite_congr (propext (crosses_relabel ..)) (fun _ => rfl) fun _ => rfl
  | succ fuel ih =>
    rw [matchAgainstLoop, matchAgainstLoop, apply_ite (Except.map _), bestLevel_relabel]
    refine ite_congr rfl (fun _ => ?_) fun _ => rfl
    cases opposite.bestLevel with
    | none => rfl
    | some entry =>
      rw [apply_ite (Except.map _)]
      refine ite_congr (propext (crosses_relabel ..)) (fun _ => ?_) fun _ => rfl
      refine bind_eq_map (relabel_matchLevel ..) fun matched => ?_
      rw [← ih]
      rw [apply_ite (OrderBookSide.relabel r), relabel_popBestLevel, relabel_put]
      rfl

theorem relabel_matchAgainst (opposite : OrderBookSide side) (s : MatchState) :
    (matchAgainst T opposite s).map (Prod.map (OrderBookSide.relabel r) (MatchState.relabel r))
      = matchAgainst T (opposite.relabel r) (s.relabel r) := by
  rw [matchAgainst, relabel_matchAgainstLoop]
  exact congrArg (matchAgainstLoop T · _ _) (List.length_map ..).symm

end Matching

end MatchingEngine
