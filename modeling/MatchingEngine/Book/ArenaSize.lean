import MatchingEngine.Book.Run
import MatchingEngine.Lib.Fallible

/-!
# The nodes a run takes

Nodes are taken from the arena in one place, where an order comes to rest; matching and cancelling
relink and retire what is there. So the arena of a book has a node at most for each order that may rest,
whether the order rested or was turned away, and whether it is still in the book.
-/

namespace MatchingEngine

open Fallible

variable {side : Side}

/-! ### No node for anything else -/

theorem ensures_size_assign (arena : Heap OrderNode) (p : Ptr) (f : OrderNode → OrderNode) :
    Ensures (assign arena p f) fun arena' => arena'.size = arena.size := by
  rw [assign]
  split
  · exact ensures_ok (Heap.size_modify ..)
  · exact ensures_error

theorem ensures_size_assign_map (level : PriceLevel) (arena : Heap OrderNode) (p : Ptr)
    (f : OrderNode → OrderNode) :
    Ensures ((assign arena p f).map (level, ·)) fun r => r.2.size = arena.size :=
  (ensures_size_assign arena p f).map fun _ h => h

theorem ensures_size_unlinkFromLevel (level : PriceLevel) (arena : Heap OrderNode) (order : Ptr) :
    Ensures (unlinkFromLevel level arena order) fun r => r.2.size = arena.size := by
  rw [unlinkFromLevel]
  refine (ensures_true _).bind fun node _ => ?_
  -- The links of the node itself are written last, after those of whichever neighbours it has.
  have hself : ∀ (level : PriceLevel) (arena' : Heap OrderNode), arena'.size = arena.size →
      Ensures (do
        let arena ← assign arena' order fun n => { n with prevSamePrice := none, nextSamePrice := none }
        return (level, arena)) fun r => r.2.size = arena.size := by
    intro level arena' hsize
    exact (ensures_size_assign ..).bind fun _ h => ensures_ok (h.trans hsize)
  cases node.prevSamePrice with
  | none =>
    cases node.nextSamePrice with
    | none => exact hself _ _ rfl
    | some next => exact (ensures_size_assign_map ..).bind fun _ hr => hself _ _ hr
  | some prev =>
    refine (ensures_size_assign_map ..).bind fun r hr => ?_
    cases node.nextSamePrice with
    | none => exact hself _ _ hr
    | some next => exact (ensures_size_assign_map ..).bind fun _ hr' => hself _ _ (hr'.trans hr)

theorem ensures_size_append (T : SignedInt) (book : OrderBookSide side) (arena : Heap OrderNode)
    (order : Ptr) : Ensures (book.append T arena order) fun r => r.2.size = arena.size := by
  rw [OrderBookSide.append]
  refine (ensures_true _).bind fun node _ => ?_
  simp only
  split
  · exact (ensures_size_assign ..).bind fun _ h => ensures_ok h
  · exact (ensures_size_assign ..).bind fun _ h =>
      (ensures_size_assign ..).bind fun _ h' => ensures_ok (h'.trans h)

theorem ensures_size_detach (T : SignedInt) (book : OrderBookSide side) (arena : Heap OrderNode)
    (order : Ptr) : Ensures (book.detach T arena order) fun r => r.2.size = arena.size := by
  rw [OrderBookSide.detach]
  refine (ensures_true _).bind fun node _ => ?_
  split
  · exact ensures_ok rfl
  · refine (ensures_size_unlinkFromLevel ..).bind fun r hr => ?_
    simp only
    split
    · exact ensures_ok hr
    · exact ensures_ok hr

theorem ensures_size_retireResting (level : PriceLevel) (node : Ptr) (s : MatchState) :
    Ensures (retireResting level node s) fun r => r.2.arena.size = s.arena.size := by
  rw [retireResting]
  refine (ensures_size_unlinkFromLevel ..).bind fun r hr => ?_
  refine (ensures_size_assign ..).bind fun arena harena => ?_
  exact (ensures_true _).bind fun _ _ => ensures_ok (harena.trans hr)

theorem ensures_size_matchLevelStep (T : SignedInt) (resting : Ptr) (level : PriceLevel)
    (s : MatchState) :
    Ensures (matchLevelStep T resting level s) fun r => r.2.2.arena.size = s.arena.size := by
  rw [matchLevelStep]
  refine (ensures_true _).bind fun node _ => ?_
  simp only
  split
  · exact ensures_error
  split
  · exact (ensures_size_retireResting ..).bind fun _ h => ensures_ok h
  · exact (ensures_size_assign ..).bind fun _ h => ensures_ok h

theorem ensures_size_matchLevelLoop (T : SignedInt) (fuel : Nat) (cursor : Option Ptr)
    (level : PriceLevel) (s : MatchState) :
    Ensures (matchLevelLoop T fuel cursor level s) fun r => r.2.arena.size = s.arena.size := by
  induction fuel generalizing cursor level s with
  | zero =>
    cases cursor with
    | none => exact ensures_ok rfl
    | some p =>
      rw [matchLevelLoop]
      split
      · exact ensures_error
      · exact ensures_ok rfl
  | succ fuel ih =>
    cases cursor with
    | none => exact ensures_ok rfl
    | some p =>
      rw [matchLevelLoop]
      split
      · exact (ensures_size_matchLevelStep ..).bind fun r hr =>
          (ih ..).mono fun _ h => h.trans hr
      · exact ensures_ok rfl

theorem ensures_size_matchAgainstLoop (T : SignedInt) (fuel : Nat) (opposite : OrderBookSide side)
    (s : MatchState) :
    Ensures (matchAgainstLoop T fuel opposite s) fun r => r.2.arena.size = s.arena.size := by
  induction fuel generalizing opposite s with
  | zero =>
    rw [matchAgainstLoop]
    split
    · split
      · exact ensures_ok rfl
      · split
        · exact ensures_error
        · exact ensures_ok rfl
    · exact ensures_ok rfl
  | succ fuel ih =>
    rw [matchAgainstLoop]
    split
    · split
      · exact ensures_ok rfl
      · split
        -- Putting the level back and taking it out leave the arena alone.
        · exact (ensures_size_matchLevelLoop ..).bind fun r hr =>
            (ih ..).mono fun _ h => h.trans hr
        · exact ensures_ok rfl
    · exact ensures_ok rfl

/-! ### One node for an order that is to rest -/

/-- Whether an input is an order that rests if it is not filled at once. -/
def InputEvent.mayRest : InputEvent → Bool
  | .addOrder event => event.tif = .gtc
  | _ => false

namespace Clob

/-- An order that is to rest takes one node, also where its id is taken. -/
theorem ensures_size_restOrder (T : SignedInt) (c : Clob) (side : Side) (residual : AddOrderEvent) :
    Ensures (c.restOrder T side residual) fun r => r.2.arena.size = c.arena.size + 1 := by
  rw [restOrder]
  simp only
  split
  · refine (ensures_size_assign ..).bind fun arena h => ensures_ok ?_
    rw [h, Heap.size_alloc]
  · refine (ensures_size_append ..).bind fun r h => ensures_ok ?_
    rw [arena_setSideBook, h, Heap.size_alloc]

theorem ensures_size_addOrder (T : SignedInt) (c : Clob) (side : Side) (event : AddOrderEvent) :
    Ensures (c.addOrder T side event) fun r =>
      r.1.arena.size ≤ c.arena.size + (InputEvent.addOrder event).mayRest.toNat := by
  rw [addOrder]
  split
  · exact ensures_ok (Nat.le_add_right ..)
  refine (ensures_size_matchAgainstLoop ..).bind fun r hr => ?_
  simp only
  split
  · refine ensures_ok ?_
    rw [arena_setSideBook, hr]
    exact Nat.le_add_right ..
  split
  · rename_i hgtc
    refine (ensures_size_restOrder ..).bind fun rested hrested => ?_
    simp only [arena_setSideBook, hr] at hrested
    have hle : rested.2.arena.size ≤ c.arena.size + (InputEvent.addOrder event).mayRest.toNat := by
      simp [InputEvent.mayRest, hgtc, hrested]
    split
    · exact ensures_ok hle
    · exact ensures_ok hle
  · refine ensures_ok ?_
    rw [arena_setSideBook, hr]
    exact Nat.le_add_right ..

theorem ensures_size_cancelResting (T : SignedInt) (c : Clob) (side : Side) (node : Ptr)
    (orderId cancelled : Int) : Ensures (c.cancelResting T side node orderId cancelled) fun r =>
      r.1.arena.size = c.arena.size := by
  rw [cancelResting]
  refine (ensures_size_detach ..).bind fun r hr => ?_
  refine (ensures_size_assign ..).bind fun arena harena => ensures_ok ?_
  rw [arena_setSideBook]
  exact harena.trans hr

theorem ensures_size_onInput (T : SignedInt) (c : Clob) (event : InputEvent) :
    Ensures (c.onInput T event) fun r => r.1.arena.size ≤ c.arena.size + event.mayRest.toNat := by
  cases event with
  | shutdown => exact ensures_ok le_rfl
  | addOrder event =>
    rw [onInput, onAddOrder]
    -- A rejection emits an event and leaves the book as it is.
    have hreject : ∀ emitted : List OutputEvent, Ensures (.ok (c, emitted) : Except Fault _) fun r =>
        r.1.arena.size ≤ c.arena.size + (InputEvent.addOrder event).mayRest.toNat :=
      fun _ => ensures_ok (Nat.le_add_right ..)
    split
    · exact hreject _
    split
    · exact hreject _
    split
    · exact hreject _
    exact ensures_size_addOrder ..
  | cancelOrder event =>
    rw [onInput, onCancelOrder]
    split
    · exact ensures_ok le_rfl
    split
    · exact ensures_ok le_rfl
    refine (ensures_true _).bind fun node _ => ?_
    split
    · exact ensures_ok le_rfl
    · exact (ensures_size_cancelResting ..).mono fun _ h => h.le

theorem ensures_size_run (T : SignedInt) (c : Clob) (events : List InputEvent) :
    Ensures (c.run T events) fun r => r.1.arena.size ≤ c.arena.size + events.countP InputEvent.mayRest := by
  induction events generalizing c with
  | nil => exact ensures_ok le_rfl
  | cons event events ih =>
    rw [run]
    refine (ensures_size_onInput ..).bind fun r hr => ?_
    refine (ih _).bind fun r' hr' => ensures_ok ?_
    rw [List.countP_cons]
    have hcount : event.mayRest.toNat = if event.mayRest then 1 else 0 := by
      cases event.mayRest <;> rfl
    simp only
    omega

end Clob

end MatchingEngine
