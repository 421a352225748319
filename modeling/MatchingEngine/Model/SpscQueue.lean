import Mathlib.Logic.Function.Basic
import MatchingEngine.Lib.Interleaving

/-!
# The single-producer, single-consumer queue

`spsc_queue.hpp`, one step for each access to what the two threads share: a call loads its own index,
loads the other's, accesses the slot and stores its index. Release and acquire make these accesses
take effect in the order in which a call makes them. What a call knows between two of its steps is
part of the state; a finished call reports how it went.
-/

namespace MatchingEngine

/-- A template argument `Capacity` that passes the static assertions. -/
structure Capacity where
  value : Nat
  two_le : 2 ≤ value
  power_of_two : value &&& (value - 1) = 0

/-- `mask_v`. -/
def Capacity.mask (capacity : Capacity) : Nat := capacity.value - 1

/-- How far a `try_push` call has come. -/
inductive PushCall (α : Type*) where
  | idle
  | loadedHead (value : α) (head : Nat)
  | admitted (value : α) (head next : Nat)
  | written (value : α) (next : Nat)

/-- How far a `try_pop` call has come. -/
inductive PopCall (α : Type*) where
  | idle
  | loadedTail (tail : Nat)
  | admitted (tail : Nat)
  | read (tail : Nat) (out : α)

structure SpscQueue (α : Type*) where
  head : Nat := 0
  tail : Nat := 0
  slots : Nat → α
  push : PushCall α := .idle
  pop : PopCall α := .idle

/-- What a call has returned. -/
inductive QueueEvent (α : Type*) where
  | pushed (value : α)
  | pushFailed
  | popped (value : α)
  | popFailed
  deriving DecidableEq

/-- The thread that moves; the producer with the value for the call that it begins, if it does. -/
inductive QueueThread (α : Type*) where
  | producer (value : α)
  | consumer

namespace SpscQueue

variable {α : Type*}

/-- The queue that the constructor makes: every slot holds `T{}`. -/
def initial (blank : α) : SpscQueue α := { slots := fun _ => blank }

/-- The next step of `try_push`. -/
def pushStep (capacity : Capacity) (q : SpscQueue α) (value : α) :
    SpscQueue α × List (QueueEvent α) :=
  match q.push with
  | .idle => ({ q with push := .loadedHead value q.head }, [])
  | .loadedHead value head =>
    let next := (head + 1) &&& capacity.mask
    if next = q.tail then ({ q with push := .idle }, [.pushFailed])
    else ({ q with push := .admitted value head next }, [])
  | .admitted value head next =>
    ({ q with slots := Function.update q.slots head value, push := .written value next }, [])
  | .written value next => ({ q with head := next, push := .idle }, [.pushed value])

/-- The next step of `try_pop`. -/
def popStep (capacity : Capacity) (q : SpscQueue α) : SpscQueue α × List (QueueEvent α) :=
  match q.pop with
  | .idle => ({ q with pop := .loadedTail q.tail }, [])
  | .loadedTail tail =>
    if tail = q.head then ({ q with pop := .idle }, [.popFailed])
    else ({ q with pop := .admitted tail }, [])
  | .admitted tail => ({ q with pop := .read tail (q.slots tail) }, [])
  | .read tail out => ({ q with tail := (tail + 1) &&& capacity.mask, pop := .idle }, [.popped out])

def step (capacity : Capacity) (q : SpscQueue α) :
    QueueThread α → SpscQueue α × List (QueueEvent α)
  | .producer value => q.pushStep capacity value
  | .consumer => q.popStep capacity

/-- The queue after an interleaving, and what its calls have returned. -/
def run (capacity : Capacity) (blank : α) (schedule : List (QueueThread α)) :
    SpscQueue α × List (QueueEvent α) :=
  Interleaving.run (step capacity) (initial blank) schedule

/-- `size`: it loads the head, and then the tail of what the queue has become by then. The difference is
one of `std::size_t`. -/
def size (capacity : Capacity) (atHead atTail : SpscQueue α) : Nat :=
  ((atHead.head + 2 ^ 64 - atTail.tail) % 2 ^ 64) &&& capacity.mask

/-- `empty`, in the same two loads. -/
def empty (atHead atTail : SpscQueue α) : Bool := atHead.head = atTail.tail

end SpscQueue

end MatchingEngine
