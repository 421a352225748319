import MatchingEngine.Book.ArenaSize
import MatchingEngine.Model.ClobMemory

/-!
# The arena of resting orders

The bytes of the arena are those of its orders rounded up to a page, and nothing is added for where the
arena begins. An arena that does not begin at a line loses up to a line to the alignment of its first
node, which the rounding makes up for unless the orders fill their pages exactly.
-/

namespace MatchingEngine

open MonotonicBuffer (Upstream)

/-- The nodes of the first `n` orders lie in the arena of a book for `capacity` orders that begins at
`base`, each on lines of its own, and nothing is asked for upstream. -/
def ServedFromArena (upstream : Upstream) (capacity : UInt64) (base n : Nat) : Prop :=
  ∃ nodes resource,
    (ClobMemory.create capacity base).allocateRestingNodes upstream n = some (nodes, resource) ∧
      resource.refills = 0 ∧ nodes.length = n ∧
      ∀ node ∈ nodes, orderNodeAlignment.toNat ∣ node ∧ base ≤ node ∧
        node + orderNodeSize.toNat ≤ base + (restingOrderArenaByteCount capacity).toNat

/-! ### The size of the arena -/

theorem toNat_alignUp {size alignment : UInt64} (hpos : 0 < alignment.toNat)
    (hfits : size.toNat + alignment.toNat - 1 < 2 ^ 64) :
    (alignUp size alignment).toNat = MonotonicBuffer.alignUp size.toNat alignment.toNat := by
  have hsum : (size + alignment - 1).toNat = size.toNat + alignment.toNat - 1 := by
    rw [UInt64.toNat_sub, UInt64.toNat_add]
    have halignment := alignment.toNat_lt
    simp only [UInt64.toNat_one]
    omega
  have hle : MonotonicBuffer.alignUp size.toNat alignment.toNat < 2 ^ 64 :=
    (Nat.div_mul_le_self ..).trans_lt hfits
  rw [alignUp, UInt64.toNat_mul, UInt64.toNat_div, hsum]
  exact Nat.mod_eq_of_lt hle

theorem toNat_restingOrderArenaByteCount {capacity : UInt64} (hpos : 0 < capacity)
    (hfits : 64 * capacity.toNat + 4095 < 2 ^ 64) :
    (restingOrderArenaByteCount capacity).toNat
      = MonotonicBuffer.alignUp (capacity.toNat * 64) 4096 := by
  have hne : capacity ≠ 0 := by
    intro hzero
    rw [hzero] at hpos
    exact absurd hpos (by decide)
  have hbytes : (capacity * alignUp orderNodeSize 64).toNat = capacity.toNat * 64 := by
    rw [show alignUp orderNodeSize 64 = 64 from by decide, UInt64.toNat_mul]
    exact Nat.mod_eq_of_lt (by simp; omega)
  rw [restingOrderArenaByteCount, if_neg hne]
  show (alignUp (capacity * alignUp orderNodeSize 64) 4096).toNat = _
  rw [toNat_alignUp (by decide) (by rw [hbytes]; simp; omega), hbytes]
  rfl

/-! ### The nodes in it -/

section Nodes

variable {upstream : Upstream} {capacity : UInt64} {base n : Nat}

theorem servedFromArena_of_le
    (hroom : MonotonicBuffer.alignUp base 64 + n * 64
      ≤ base + (restingOrderArenaByteCount capacity).toNat) :
    ServedFromArena upstream capacity base n := by
  obtain ⟨resource, halloc, hrefills⟩ :=
    @MonotonicBuffer.Resource.allocateMany_of_le upstream orderNodeSize.toNat
      orderNodeAlignment.toNat (ClobMemory.create capacity base).restingOrderMono n (by decide)
      (by decide) hroom
  refine ⟨_, resource, halloc, hrefills, List.length_range' .., ?_⟩
  intro node hnode
  obtain ⟨i, hi, rfl⟩ := List.mem_range'.mp hnode
  have hline : 64 ∣ MonotonicBuffer.alignUp base 64 := MonotonicBuffer.dvd_alignUp ..
  have hbase : base ≤ MonotonicBuffer.alignUp base 64 := MonotonicBuffer.le_alignUp (by decide) base
  show 64 ∣ MonotonicBuffer.alignUp base 64 + 64 * i ∧ base ≤ MonotonicBuffer.alignUp base 64 + 64 * i ∧
    MonotonicBuffer.alignUp base 64 + 64 * i + 64 ≤ base + (restingOrderArenaByteCount capacity).toNat
  refine ⟨Nat.dvd_add hline (Nat.dvd_mul_right ..), by omega, by omega⟩

/-- Nodes are served from the arena while they fit behind its first line. -/
theorem servedFromArena_iff_le (hn : 0 < n) :
    ServedFromArena upstream capacity base n ↔
      MonotonicBuffer.alignUp base 64 + n * 64
        ≤ base + (restingOrderArenaByteCount capacity).toNat := by
  constructor
  · rintro ⟨nodes, resource, halloc, hrefills, -⟩
    exact MonotonicBuffer.Resource.le_of_refills_eq (by decide) hn halloc hrefills
  · exact servedFromArena_of_le

/-- **The arena holds the orders of the book.** For all of them it depends on where the arena begins
and on whether their lines fill its pages. -/
theorem servedFromArena_iff (upstream : Upstream) (capacity : UInt64) (base : Nat) (hpos : 0 < capacity)
    (hfits : 64 * capacity.toNat + 4095 < 2 ^ 64) :
    ServedFromArena upstream capacity base capacity.toNat ↔ 64 ∣ base ∨ ¬ 64 ∣ capacity.toNat := by
  have hpage : 4096 ∣ capacity.toNat * 64 ↔ 64 ∣ capacity.toNat := by omega
  rw [servedFromArena_iff_le (UInt64.lt_iff_toNat_lt.mp hpos), toNat_restingOrderArenaByteCount hpos hfits,
    MonotonicBuffer.alignUp_add_le_iff (by decide) (by decide) (by decide) (Nat.dvd_mul_left ..), hpage]

/-- All orders but the last fit wherever the arena begins. -/
theorem servedFromArena_of_lt (hfits : 64 * capacity.toNat + 4095 < 2 ^ 64)
    (hlt : n < capacity.toNat) : ServedFromArena upstream capacity base n := by
  have hpos : 0 < capacity := UInt64.lt_iff_toNat_lt.mpr (Nat.zero_lt_of_lt hlt)
  have hpadding := MonotonicBuffer.alignUp_lt_add (a := 64) (by decide) base
  have hbytes := MonotonicBuffer.le_alignUp (a := 4096) (by decide) (capacity.toNat * 64)
  apply servedFromArena_of_le
  rw [toNat_restingOrderArenaByteCount hpos hfits]
  omega

/-- **The nodes of every run.** While the orders that may rest are fewer than the capacity, the book has
all its nodes in its arena; for as many as the capacity it depends on where the arena begins. -/
theorem run_servedFromArena {T : SignedInt} {events : List InputEvent}
    (hfits : 64 * capacity.toNat + 4095 < 2 ^ 64) (hevents : ∀ event ∈ events, event.Fits T)
    (hcount : events.countP InputEvent.mayRest ≤ capacity.toNat)
    (hroom : events.countP InputEvent.mayRest < capacity.toNat ∨ 64 ∣ base ∨ ¬ 64 ∣ capacity.toNat) :
    ∃ c emitted, Clob.run T {} events = .ok (c, emitted) ∧
      ServedFromArena upstream capacity base c.arena.size := by
  obtain ⟨c, emitted, -, hrun, -⟩ := run_represents events hevents
  have hsize : c.arena.size ≤ 0 + events.countP InputEvent.mayRest :=
    (Clob.ensures_size_run T {} events).of_eq_ok _ hrun
  refine ⟨c, emitted, hrun, ?_⟩
  rcases Nat.lt_or_ge c.arena.size capacity.toNat with hlt | hge
  · exact servedFromArena_of_lt hfits hlt
  have hfull : c.arena.size = capacity.toNat := by omega
  rcases Nat.eq_zero_or_pos capacity.toNat with hzero | hpos
  · rw [hfull, hzero]
    exact ⟨[], _, rfl, rfl, rfl, by simp⟩
  · rw [hfull, servedFromArena_iff_le hpos,
      toNat_restingOrderArenaByteCount (UInt64.lt_iff_toNat_lt.mpr hpos) hfits,
      MonotonicBuffer.alignUp_add_le_iff (by decide) (by decide) (by decide) (Nat.dvd_mul_left ..)]
    omega

end Nodes

/-- An upstream that gives a region of its own for every request. -/
def heap : Upstream := fun refills bytes _ =>
  some ⟨2 ^ 40 * (refills + 1), 2 ^ 40 * (refills + 1) + bytes⟩

/-- Two orders rest, in an arena that does not begin at a line. -/
theorem run_servedFromArena_two :
    ∃ c emitted, Clob.run .int64 {} [.addOrder ⟨1, .buy, 5, 100, .gtc⟩, .addOrder ⟨2, .sell, 9, 100, .gtc⟩]
        = .ok (c, emitted) ∧ ServedFromArena heap 1000 16 c.arena.size :=
  run_servedFromArena (by decide) (by decide +kernel) (by decide) (Or.inl (by decide))

theorem servedFromArena_iff_thousand : ServedFromArena heap 1000 16 1000 :=
  (servedFromArena_iff heap 1000 16 (by decide) (by decide)).mpr (by decide)

/-- The orders of the default capacity fill their pages, and an arena that the allocator of the vector
places a header's width behind the beginning of a page does not begin at a line. -/
theorem not_servedFromArena_default :
    ¬ ServedFromArena heap defaultCapacity (4096 + 16) defaultCapacity.toNat := by
  rw [servedFromArena_iff_le (by decide), toNat_restingOrderArenaByteCount (by decide) (by decide)]
  decide

end MatchingEngine
