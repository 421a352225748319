import MatchingEngine.Lib.MonotonicBuffer

/-!
# The memory of the book

`clob_memory_t` in `order_book.hpp`, with its arena of resting orders. `std::size_t` is `UInt64`, whose
operations wrap around as those of the source do. Addresses are natural numbers, since no buffer wraps
around the end of memory. The vector that is the arena begins at an address that is given.
-/

namespace MatchingEngine

/-- `sizeof(order_node_t)`. -/
def orderNodeSize : UInt64 := 64

/-- `alignof(order_node_t)`. -/
def orderNodeAlignment : UInt64 := 64

def alignUp (size alignment : UInt64) : UInt64 :=
  ((size + alignment - 1) / alignment) * alignment

def restingOrderArenaByteCount (maxOrders : UInt64) : UInt64 :=
  if maxOrders = 0 then
    0
  else
    let line := 64
    let per := alignUp orderNodeSize line
    alignUp (maxOrders * per) 4096

/-- `default_capacity_v`. -/
def defaultCapacity : UInt64 := 2000000

/-- `clob_memory_t`. -/
structure ClobMemory where
  bookCapacity : UInt64
  restingOrderMono : MonotonicBuffer.Resource

namespace ClobMemory

/-- The memory of a book whose arena begins at `restingOrderArena`. -/
def create (bookCapacity : UInt64) (restingOrderArena : Nat) : ClobMemory where
  bookCapacity
  restingOrderMono :=
    { buffer :=
        { current := restingOrderArena
          stop := restingOrderArena + (restingOrderArenaByteCount bookCapacity).toNat }
      refills := 0 }

/-- What `n` calls of `allocate_resting_node` take from `resting_order_resource()`: the addresses of the
nodes, and the resource behind them. -/
def allocateRestingNodes (upstream : MonotonicBuffer.Upstream) (memory : ClobMemory) (n : Nat) :
    Option (List Nat × MonotonicBuffer.Resource) :=
  memory.restingOrderMono.allocateMany upstream orderNodeSize.toNat orderNodeAlignment.toNat n

end ClobMemory

end MatchingEngine
