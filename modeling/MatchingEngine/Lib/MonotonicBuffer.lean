import Mathlib.Algebra.Order.Floor.Div
import Mathlib.Data.List.Range

/-!
# Monotonic buffers

Memory handed out by moving a cursor through a buffer: a request aligns the cursor up and takes the
block there if it ends inside the buffer. Where it does not, a new buffer is asked for upstream and the
request is served from that one. Nothing is ever given back.

Blocks of one size that keeps the cursor aligned lie one behind the other, so a row of them is served
without going upstream exactly when the buffer has room for all of them behind the first alignment.
-/

namespace MonotonicBuffer

/-- The least multiple of the alignment from `x` on. -/
def alignUp (x alignment : ℕ) : ℕ := (x + alignment - 1) / alignment * alignment

section AlignUp

variable {x y a line page : ℕ}

theorem dvd_alignUp (x a : ℕ) : a ∣ alignUp x a := Nat.dvd_mul_left ..

/-- Below a multiple of the alignment lies what rounds to at most that. -/
theorem alignUp_le_iff (ha : 0 < a) (hy : a ∣ y) : alignUp x a ≤ y ↔ x ≤ y := by
  obtain ⟨k, rfl⟩ := hy
  rw [alignUp, ← Nat.ceilDiv_eq_add_pred_div, Nat.mul_comm, Nat.mul_le_mul_left_iff ha,
    ceilDiv_le_iff_le_mul ha]

theorem le_alignUp (ha : 0 < a) (x : ℕ) : x ≤ alignUp x a :=
  (alignUp_le_iff ha (dvd_alignUp x a)).mp le_rfl

theorem alignUp_eq_self_iff (ha : 0 < a) : alignUp x a = x ↔ a ∣ x := by
  constructor
  · intro heq
    rw [← heq]
    exact dvd_alignUp x a
  · intro hx
    exact le_antisymm ((alignUp_le_iff ha hx).mpr le_rfl) (le_alignUp ha x)

theorem lt_alignUp (ha : 0 < a) (hx : ¬ a ∣ x) : x < alignUp x a :=
  (le_alignUp ha x).lt_of_ne fun heq => hx ((alignUp_eq_self_iff ha).mp heq.symm)

theorem alignUp_lt_add (ha : 0 < a) (x : ℕ) : alignUp x a < x + a := by
  have hle : alignUp x a ≤ x + a - 1 := Nat.div_mul_le_self ..
  omega

/-- Lines that are aligned wherever the buffer begins, in a buffer of whole pages: either the buffer is
aligned already, or the rounding up to a page leaves the room that aligning it takes. -/
theorem alignUp_add_le_iff (hline : 0 < line) (hpage : 0 < page) (hdvd : line ∣ page) (hy : line ∣ y) :
    alignUp x line + y ≤ x + alignUp y page ↔ line ∣ x ∨ ¬ page ∣ y := by
  constructor
  · intro hle
    by_contra hnot
    rw [not_or, not_not] at hnot
    have hpadding := lt_alignUp hline hnot.1
    rw [(alignUp_eq_self_iff hpage).mpr hnot.2] at hle
    omega
  · intro hroom
    rcases hroom with hx | hy'
    · rw [(alignUp_eq_self_iff hline).mpr hx]
      exact Nat.add_le_add_left (le_alignUp hpage y) x
    · have hslack : y + line ≤ alignUp y page := by
        have hlines : line ∣ alignUp y page := hdvd.trans (dvd_alignUp y page)
        have hlt := lt_alignUp hpage hy'
        have hgap := Nat.le_of_dvd (Nat.sub_pos_of_lt hlt) (Nat.dvd_sub hlines hy)
        omega
      have hpadding := alignUp_lt_add hline x
      omega

end AlignUp

/-! ### Buffers -/

/-- What is left of a buffer: from the cursor to the end. -/
structure Buffer where
  current : ℕ
  stop : ℕ

/-- The block for a request, and what is left behind it. -/
def Buffer.allocate (b : Buffer) (bytes alignment : ℕ) : Option (ℕ × Buffer) :=
  let p := alignUp b.current alignment
  if p + bytes ≤ b.stop then some (p, { b with current := p + bytes }) else none

/-- The buffer in use, and how many were asked for upstream. -/
structure Resource where
  buffer : Buffer
  refills : ℕ

/-- The buffer that upstream gives for a request, if any; it may depend on how many it has given. -/
abbrev Upstream := (refills bytes alignment : ℕ) → Option Buffer

namespace Resource

variable (upstream : Upstream) (bytes alignment : ℕ)

def allocate (r : Resource) : Option (ℕ × Resource) :=
  match r.buffer.allocate bytes alignment with
  | some block => some (block.1, { r with buffer := block.2 })
  | none => do
    let fresh ← upstream r.refills bytes alignment
    let block ← fresh.allocate bytes alignment
    return (block.1, { buffer := block.2, refills := r.refills + 1 })

/-- The blocks for a row of equal requests. -/
def allocateMany : ℕ → Resource → Option (List ℕ × Resource)
  | 0, r => some ([], r)
  | n + 1, r => do
    let (p, r) ← r.allocate upstream bytes alignment
    let (ps, r) ← allocateMany n r
    return (p :: ps, r)

variable {upstream bytes alignment} {r r' : Resource} {p n : ℕ} {ps : List ℕ}

theorem allocate_of_le (h : alignUp r.buffer.current alignment + bytes ≤ r.buffer.stop) :
    r.allocate upstream bytes alignment = some (alignUp r.buffer.current alignment,
      { r with buffer := ⟨alignUp r.buffer.current alignment + bytes, r.buffer.stop⟩ }) := by
  rw [allocate, Buffer.allocate, if_pos h]

/-- A request that the buffer has no room for goes upstream. -/
theorem refills_of_lt (h : r.buffer.stop < alignUp r.buffer.current alignment + bytes)
    (halloc : r.allocate upstream bytes alignment = some (p, r')) : r'.refills = r.refills + 1 := by
  rw [allocate, Buffer.allocate, if_neg h.not_ge] at halloc
  obtain ⟨fresh, -, hfresh⟩ := Option.bind_eq_some_iff.mp halloc
  obtain ⟨block, -, hblock⟩ := Option.bind_eq_some_iff.mp hfresh
  rw [← (Prod.mk.inj (Option.some.inj hblock)).2]

theorem refills_le_allocate (halloc : r.allocate upstream bytes alignment = some (p, r')) :
    r.refills ≤ r'.refills := by
  rcases le_or_gt (alignUp r.buffer.current alignment + bytes) r.buffer.stop with hfits | hfull
  · rw [allocate_of_le hfits] at halloc
    rw [← (Prod.mk.inj (Option.some.inj halloc)).2]
  · rw [refills_of_lt hfull halloc]
    exact Nat.le_succ _

/-- A row of requests is its first one and the rest. -/
theorem allocateMany_succ_eq_some_iff :
    r.allocateMany upstream bytes alignment (n + 1) = some (ps, r') ↔
      ∃ p r₁ qs, r.allocate upstream bytes alignment = some (p, r₁) ∧
        r₁.allocateMany upstream bytes alignment n = some (qs, r') ∧ ps = p :: qs := by
  constructor
  · intro halloc
    obtain ⟨first, hfirst, hrest⟩ := Option.bind_eq_some_iff.mp halloc
    obtain ⟨rest, hmany, hlast⟩ := Option.bind_eq_some_iff.mp hrest
    obtain ⟨hps, hr⟩ := Prod.mk.inj (Option.some.inj hlast)
    exact ⟨first.1, first.2, rest.1, hfirst, hr ▸ hmany, hps.symm⟩
  · rintro ⟨p, r₁, qs, hfirst, hmany, rfl⟩
    simp [allocateMany, hfirst, hmany]

theorem refills_le_allocateMany (halloc : r.allocateMany upstream bytes alignment n = some (ps, r')) :
    r.refills ≤ r'.refills := by
  induction n generalizing r ps with
  | zero =>
    rw [allocateMany, Option.some.injEq, Prod.mk.injEq] at halloc
    rw [halloc.2]
  | succ n ih =>
    obtain ⟨p, r₁, qs, hfirst, hmany, -⟩ := allocateMany_succ_eq_some_iff.mp halloc
    exact (refills_le_allocate hfirst).trans (ih hmany)

/-- A row that the buffer has room for lies in it without gaps. -/
theorem allocateMany_of_le (ha : 0 < alignment) (hbytes : alignment ∣ bytes)
    (hroom : alignUp r.buffer.current alignment + n * bytes ≤ r.buffer.stop) :
    ∃ r', r.allocateMany upstream bytes alignment n
        = some (List.range' (alignUp r.buffer.current alignment) n bytes, r') ∧
      r'.refills = r.refills := by
  induction n generalizing r with
  | zero => exact ⟨r, rfl, rfl⟩
  | succ n ih =>
    rw [Nat.succ_mul] at hroom
    obtain ⟨p, hp⟩ : ∃ p, p = alignUp r.buffer.current alignment := ⟨_, rfl⟩
    rw [← hp] at hroom ⊢
    have hfirst : r.allocate upstream bytes alignment
        = some (p, { r with buffer := ⟨p + bytes, r.buffer.stop⟩ }) := by
      rw [hp, allocate_of_le (by omega)]
    -- The cursor is aligned already behind the first block.
    have hnext : alignUp (p + bytes) alignment = p + bytes :=
      (alignUp_eq_self_iff ha).mpr (Nat.dvd_add (hp ▸ dvd_alignUp _ _) hbytes)
    obtain ⟨r', hmany, hrefills⟩ := @ih { r with buffer := ⟨p + bytes, r.buffer.stop⟩ } (by
      rw [hnext]
      show p + bytes + n * bytes ≤ r.buffer.stop
      omega)
    refine ⟨r', ?_, hrefills⟩
    rw [hnext] at hmany
    exact allocateMany_succ_eq_some_iff.mpr ⟨p, _, _, hfirst, hmany, List.range'_succ⟩

/-- A row that is served without going upstream had room in the buffer. -/
theorem le_of_refills_eq (ha : 0 < alignment) (hn : 0 < n)
    (halloc : r.allocateMany upstream bytes alignment n = some (ps, r'))
    (hrefills : r'.refills = r.refills) :
    alignUp r.buffer.current alignment + n * bytes ≤ r.buffer.stop := by
  induction n generalizing r ps with
  | zero => exact absurd hn (lt_irrefl 0)
  | succ n ih =>
    obtain ⟨p, r₁, qs, hfirst, hmany, -⟩ := allocateMany_succ_eq_some_iff.mp halloc
    have hlater := refills_le_allocateMany hmany
    rcases lt_or_ge r.buffer.stop (alignUp r.buffer.current alignment + bytes) with hfull | hfits
    · rw [refills_of_lt hfull hfirst] at hlater
      omega
    rw [allocate_of_le hfits] at hfirst
    obtain ⟨-, rfl⟩ := Prod.mk.inj (Option.some.inj hfirst)
    rcases Nat.eq_zero_or_pos n with rfl | hpos
    · rwa [Nat.zero_add, Nat.one_mul]
    · have hrest := ih hpos hmany hrefills
      have hnext := le_alignUp ha (alignUp r.buffer.current alignment + bytes)
      rw [Nat.succ_mul]
      change alignUp (alignUp r.buffer.current alignment + bytes) alignment + n * bytes
        ≤ r.buffer.stop at hrest
      omega

end Resource

end MonotonicBuffer
