import Mathlib.Logic.Function.Basic
import MatchingEngine.Lib.LinkedHeap
import MatchingEngine.Lib.OrderedMap
import MatchingEngine.Model.MessageTypes

/-!
# The order book

`order_book.hpp`, down to the pointers. Resting orders are nodes in an arena that only grows; each
price level is an intrusive list of nodes with a cached total; each side is a map from prices to
levels ordered best first; and `lookup` takes an id to its node.

Every sum and difference the source computes goes through the integer type `T`. A read or write
through a pointer to no node, a failed assertion and a loop that outlives its fuel are faults. The
loops are given the number of nodes ever allocated and the number of levels as fuel.
-/

namespace MatchingEngine

structure OrderNode where
  orderId : Int
  price : Int
  quantity : Int
  side : Side
  active : Bool
  prevSamePrice : Option Ptr
  nextSamePrice : Option Ptr
  deriving DecidableEq, Repr

instance : Linked OrderNode where
  prev := OrderNode.prevSamePrice
  next := OrderNode.nextSamePrice
  setPrev x node := { node with prevSamePrice := x }
  setNext x node := { node with nextSamePrice := x }
  prev_setPrev _ _ := rfl
  next_setPrev _ _ := rfl
  prev_setNext _ _ := rfl
  next_setNext _ _ := rfl

structure PriceLevel where
  head : Option Ptr := none
  tail : Option Ptr := none
  totalQuantity : Int := 0
  deriving DecidableEq, Repr

/-- `resting_levels_compare_t`: bids descending, asks ascending. -/
def RestingLevelsCompare : Side → Int → Int → Prop
  | .buy, p, q => q < p
  | .sell, p, q => p < q

instance (side : Side) : DecidableRel (RestingLevelsCompare side) := fun p q => by
  cases side <;> simp only [RestingLevelsCompare] <;> infer_instance

instance (side : Side) : IsStrictTotalOrder Int (RestingLevelsCompare side) where
  irrefl p := by cases side <;> simp [RestingLevelsCompare]
  trans p q r := by cases side <;> simp only [RestingLevelsCompare] <;> omega
  trichotomous p q := by cases side <;> simp only [RestingLevelsCompare] <;> omega

/-- `order_book_side_t`. -/
structure OrderBookSide (side : Side) where
  levels : OrderedMap Int PriceLevel (RestingLevelsCompare side) := ∅
  deriving DecidableEq

/-- `order_book_side_t::crosses`, of the side that rests. -/
def Crosses (side : Side) (aggressivePrice restingPrice : Int) : Prop :=
  ¬ RestingLevelsCompare side aggressivePrice restingPrice

instance (side : Side) (p q : Int) : Decidable (Crosses side p q) :=
  inferInstanceAs (Decidable (¬ _))

inductive Fault where
  | badPointer
  | assertion
  | outOfFuel
  deriving DecidableEq, Repr

def deref (arena : Heap OrderNode) (p : Ptr) : Except Fault OrderNode :=
  match arena.read p with
  | some node => .ok node
  | none => .error .badPointer

/-- Write to fields of the node at a pointer. -/
def assign (arena : Heap OrderNode) (p : Ptr) (f : OrderNode → OrderNode) :
    Except Fault (Heap OrderNode) :=
  match arena.read p with
  | some _ => .ok (arena.modify p f)
  | none => .error .badPointer

/-- The relinking that `detach` and `retire_resting` each spell out: both neighbours, or the ends of
the level where there is none, then the links of the node itself. -/
def unlinkFromLevel (level : PriceLevel) (arena : Heap OrderNode) (order : Ptr) :
    Except Fault (PriceLevel × Heap OrderNode) := do
  let node ← deref arena order
  let prev := node.prevSamePrice
  let next := node.nextSamePrice
  let (level, arena) ← match prev with
    | some p => (assign arena p fun n => { n with nextSamePrice := next }).map (level, ·)
    | none => .ok ({ level with head := next }, arena)
  let (level, arena) ← match next with
    | some p => (assign arena p fun n => { n with prevSamePrice := prev }).map (level, ·)
    | none => .ok ({ level with tail := prev }, arena)
  let arena ← assign arena order fun n => { n with prevSamePrice := none, nextSamePrice := none }
  return (level, arena)

namespace OrderBookSide

variable {side : Side}

def append (T : SignedInt) (book : OrderBookSide side) (arena : Heap OrderNode) (order : Ptr) :
    Except Fault (OrderBookSide side × Heap OrderNode) := do
  let node ← deref arena order
  let level := (book.levels.find? node.price).getD {}
  let level := { level with totalQuantity := T.add level.totalQuantity node.quantity }
  match level.tail with
  | none =>
    let arena ← assign arena order fun n => { n with prevSamePrice := none, nextSamePrice := none }
    return (⟨book.levels.put node.price { level with head := some order, tail := some order }⟩, arena)
  | some tail =>
    let arena ← assign arena order fun n => { n with prevSamePrice := some tail, nextSamePrice := none }
    let arena ← assign arena tail fun n => { n with nextSamePrice := some order }
    return (⟨book.levels.put node.price { level with tail := some order }⟩, arena)

def detach (T : SignedInt) (book : OrderBookSide side) (arena : Heap OrderNode) (order : Ptr) :
    Except Fault (OrderBookSide side × Heap OrderNode) := do
  let node ← deref arena order
  match book.levels.find? node.price with
  | none => return (book, arena)
  | some level =>
    let level := { level with totalQuantity := T.sub level.totalQuantity node.quantity }
    let (level, arena) ← unlinkFromLevel level arena order
    if level.head = none then return (⟨book.levels.erase node.price⟩, arena)
    else return (⟨book.levels.put node.price level⟩, arena)

def bestLevel (book : OrderBookSide side) : Option (Int × PriceLevel) := book.levels.first?

def popBestLevel (book : OrderBookSide side) : OrderBookSide side := ⟨book.levels.eraseFirst⟩

def depth (book : OrderBookSide side) : Nat := book.levels.entries.length

/-- The loop of `fillable_quantity` over the levels still to be visited. -/
def fillableFrom (T : SignedInt) (side : Side) (limitPrice : Int) (need : Int) :
    Int → List (Int × PriceLevel) → Int
  | available, [] => available
  | available, (price, level) :: levels =>
    if Crosses side limitPrice price then
      let available := T.add available level.totalQuantity
      if need ≤ available then need else fillableFrom T side limitPrice need available levels
    else available

def fillableQuantity (T : SignedInt) (book : OrderBookSide side) (limitPrice : Int)
    (need : Int) : Int :=
  fillableFrom T side limitPrice need 0 book.levels.entries

end OrderBookSide

/-! ### Matching

`MatchState` is what the matching loops read and write besides the level or the side at hand: the
arena and the lookup of the book, the incoming order with its remaining quantity, the fill counter
of the running function, and the events handed to the emitter so far. -/

structure MatchState where
  arena : Heap OrderNode
  lookup : Int → Option Ptr
  incoming : AddOrderEvent
  filledQuantity : Int
  emitted : List OutputEvent

def retireResting (level : PriceLevel) (node : Ptr) (s : MatchState) :
    Except Fault (PriceLevel × MatchState) := do
  let (level, arena) ← unlinkFromLevel level s.arena node
  let arena ← assign arena node fun n => { n with active := false }
  let retired ← deref arena node
  return (level, { s with arena, lookup := Function.update s.lookup retired.orderId none })

/-- The body of the loop of `match_level`, at the node under the cursor; the cursor moves to the
successor read before the node is touched. -/
def matchLevelStep (T : SignedInt) (resting : Ptr) (level : PriceLevel) (s : MatchState) :
    Except Fault (Option Ptr × PriceLevel × MatchState) := do
  let node ← deref s.arena resting
  let next := node.nextSamePrice
  if node.active = false then throw .assertion
  let restingQty := node.quantity
  let tradeQty := min s.incoming.quantity restingQty
  let restingRemaining := T.sub restingQty tradeQty
  let level := { level with totalQuantity := T.sub level.totalQuantity tradeQty }
  let s := { s with
    emitted := s.emitted ++ [OutputEvent.trade ⟨s.incoming.orderId, node.orderId, tradeQty⟩]
    filledQuantity := T.add s.filledQuantity tradeQty
    incoming := { s.incoming with quantity := T.sub s.incoming.quantity tradeQty } }
  if restingRemaining = 0 then
    let s := { s with emitted := s.emitted ++ [OutputEvent.orderFilled ⟨node.orderId, tradeQty⟩] }
    let (level, s) ← retireResting level resting s
    return (next, level, s)
  else
    let arena ← assign s.arena resting fun n => { n with quantity := restingRemaining }
    let emitted := s.emitted ++ [OutputEvent.orderResting ⟨node.orderId, tradeQty, restingRemaining⟩]
    return (next, level, { s with arena, emitted })

def matchLevelLoop (T : SignedInt) :
    Nat → Option Ptr → PriceLevel → MatchState → Except Fault (PriceLevel × MatchState)
  | _, none, level, s => return (level, s)
  | 0, some _, level, s => if 0 < s.incoming.quantity then throw .outOfFuel else return (level, s)
  | fuel + 1, some resting, level, s =>
    if 0 < s.incoming.quantity then do
      let (next, level, s) ← matchLevelStep T resting level s
      matchLevelLoop T fuel next level s
    else return (level, s)

/-- `match_level`; the result's fill counter is the function's own. -/
def matchLevel (T : SignedInt) (level : PriceLevel) (s : MatchState) :
    Except Fault (PriceLevel × MatchState) :=
  matchLevelLoop T s.arena.size level.head level { s with filledQuantity := 0 }

def matchAgainstLoop (T : SignedInt) {side : Side} :
    Nat → OrderBookSide side → MatchState → Except Fault (OrderBookSide side × MatchState)
  | fuel, opposite, s =>
    if 0 < s.incoming.quantity then
      match opposite.bestLevel with
      | none => return (opposite, s)
      | some (levelPrice, level) =>
        if Crosses side s.incoming.price levelPrice then
          match fuel with
          | 0 => throw .outOfFuel
          | fuel + 1 => do
            let (level, r) ← matchLevel T level s
            let s := { r with filledQuantity := T.add s.filledQuantity r.filledQuantity }
            let opposite : OrderBookSide side := ⟨opposite.levels.put levelPrice level⟩
            let opposite := if level.head = none then opposite.popBestLevel else opposite
            matchAgainstLoop T fuel opposite s
        else return (opposite, s)
    else return (opposite, s)

def matchAgainst (T : SignedInt) {side : Side} (opposite : OrderBookSide side) (s : MatchState) :
    Except Fault (OrderBookSide side × MatchState) :=
  matchAgainstLoop T opposite.depth opposite s

/-! ### The book -/

structure Clob where
  bids : OrderBookSide .buy := {}
  asks : OrderBookSide .sell := {}
  lookup : Int → Option Ptr := fun _ => none
  arena : Heap OrderNode := .empty

namespace Clob

def sideBook (c : Clob) : (side : Side) → OrderBookSide side
  | .buy => c.bids
  | .sell => c.asks

def setSideBook (c : Clob) : {side : Side} → OrderBookSide side → Clob
  | .buy, book => { c with bids := book }
  | .sell, book => { c with asks := book }

def bidDepth (c : Clob) : Nat := c.bids.depth

def askDepth (c : Clob) : Nat := c.asks.depth

def fillableAtLimit (T : SignedInt) (c : Clob) (side : Side) (incoming : AddOrderEvent) : Bool :=
  let need := incoming.quantity
  let available := (c.sideBook side.opposite).fillableQuantity T incoming.price need
  need ≤ available

/-- The node that `allocate_resting_node` constructs, for `rest_order`. -/
def allocateRestingNode (residual : AddOrderEvent) : OrderNode where
  orderId := residual.orderId
  price := residual.price
  quantity := residual.quantity
  side := residual.side
  active := true
  prevSamePrice := none
  nextSamePrice := none

/-- `rest_order`; the arena hands out its next address. -/
def restOrder (T : SignedInt) (c : Clob) (side : Side) (residual : AddOrderEvent) :
    Except Fault (Bool × Clob) := do
  let node := c.arena.size
  let arena := c.arena.alloc (allocateRestingNode residual)
  if (c.lookup residual.orderId).isSome then
    let arena ← assign arena node fun n => { n with active := false }
    return (false, { c with arena })
  let lookup := Function.update c.lookup residual.orderId (some node)
  let (book, arena) ← (c.sideBook side).append T arena node
  return (true, { c with lookup, arena }.setSideBook book)

def addOrder (T : SignedInt) (c : Clob) (side : Side) (event : AddOrderEvent) :
    Except Fault (Clob × List OutputEvent) := do
  if event.tif = .fok ∧ c.fillableAtLimit T side event = false then
    return (c, [.orderCancelled ⟨event.orderId, 0, event.quantity, .fillOrKill⟩])
  let (opposite, s) ← matchAgainst T (c.sideBook side.opposite) ⟨c.arena, c.lookup, event, 0, []⟩
  let c := { c with lookup := s.lookup, arena := s.arena }.setSideBook opposite
  let residue := s.incoming.quantity
  if residue = 0 then
    return (c, s.emitted ++ [.orderFilled ⟨event.orderId, s.filledQuantity⟩])
  if event.tif = .gtc then
    let (rested, c) ← c.restOrder T side s.incoming
    if rested = false then
      return (c, s.emitted ++ [.orderRejected ⟨event.orderId, .duplicateOrderId⟩])
    return (c, s.emitted ++ [.orderResting ⟨event.orderId, s.filledQuantity, residue⟩])
  let cause := if event.tif = .ioc then .immediateOrCancel else .fillOrKill
  return (c, s.emitted ++ [.orderCancelled ⟨event.orderId, s.filledQuantity, residue, cause⟩])

/-- `cancel_resting`, at the lookup entry of `orderId`. -/
def cancelResting (T : SignedInt) (c : Clob) (side : Side) (node : Ptr) (orderId : Int)
    (cancelled : Int) : Except Fault (Clob × List OutputEvent) := do
  let (book, arena) ← (c.sideBook side).detach T c.arena node
  let arena ← assign arena node fun n => { n with active := false }
  let lookup := Function.update c.lookup orderId none
  return ({ c with lookup, arena }.setSideBook book,
    [.orderCancelled ⟨orderId, 0, cancelled, .userRequest⟩])

/-- `operator()(const add_order_event_t&)`. -/
def onAddOrder (T : SignedInt) (c : Clob) (event : AddOrderEvent) :
    Except Fault (Clob × List OutputEvent) :=
  if event.orderId ≤ 0 then return (c, [.orderRejected ⟨event.orderId, .invalidOrderId⟩])
  else if event.quantity ≤ 0 then return (c, [.orderRejected ⟨event.orderId, .invalidQuantity⟩])
  else if event.price ≤ 0 then return (c, [.orderRejected ⟨event.orderId, .invalidPrice⟩])
  else c.addOrder T event.side event

/-- `operator()(const cancel_order_event_t&)`. -/
def onCancelOrder (T : SignedInt) (c : Clob) (event : CancelOrderEvent) :
    Except Fault (Clob × List OutputEvent) :=
  if event.orderId ≤ 0 then return (c, [.orderRejected ⟨event.orderId, .invalidOrderId⟩])
  else
    match c.lookup event.orderId with
    | none => return (c, [.orderRejected ⟨event.orderId, .unknownOrderId⟩])
    | some it => do
      let node ← deref c.arena it
      if node.active = false then
        return (c, [.orderRejected ⟨event.orderId, .unknownOrderId⟩])
      c.cancelResting T node.side it event.orderId node.quantity

/-- `operator()(const input_event_t&)`. -/
def onInput (T : SignedInt) (c : Clob) : InputEvent → Except Fault (Clob × List OutputEvent)
  | .addOrder event => c.onAddOrder T event
  | .cancelOrder event => c.onCancelOrder T event
  | .shutdown => return (c, [])

/-- The book and the emitted events after a sequence of inputs. -/
def run (T : SignedInt) : Clob → List InputEvent → Except Fault (Clob × List OutputEvent)
  | c, [] => return (c, [])
  | c, event :: events => do
    let (c, emitted) ← c.onInput T event
    let (c, later) ← run T c events
    return (c, emitted ++ later)

end Clob

end MatchingEngine
