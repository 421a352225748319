import Mathlib.Algebra.Group.Nat.Defs
import Mathlib.Algebra.Order.Group.Int

/-!
# Signed integer types

A signed integer type is either the unbounded integers or two's complement of a fixed width. A
program over such a type computes each operation exactly and then reduces the result into the type;
`wrap` is that reduction. A statement over exact integers is the instance `unbounded`, and a
statement about the machine is the instance at a width, so one model serves both.
-/

/-- The type a signed computation is carried out in. -/
inductive SignedInt where
  | unbounded
  | bits (width : Nat)
  deriving DecidableEq, Repr

namespace SignedInt

variable {T : SignedInt} {x y : Int}

/-- The value of the type that an exact result is reduced to. -/
def wrap : SignedInt → Int → Int
  | unbounded, x => x
  | bits width, x => x.bmod (2 ^ width)

/-- The values of the type are those the reduction leaves alone. -/
def Fits (T : SignedInt) (x : Int) : Prop := T.wrap x = x

instance (T : SignedInt) (x : Int) : Decidable (T.Fits x) := inferInstanceAs (Decidable (_ = _))

def add (T : SignedInt) (x y : Int) : Int := T.wrap (x + y)

def sub (T : SignedInt) (x y : Int) : Int := T.wrap (x - y)

@[simp] theorem fits_unbounded (x : Int) : unbounded.Fits x := rfl

theorem Fits.add_eq (h : T.Fits (x + y)) : T.add x y = x + y := h

theorem Fits.sub_eq (h : T.Fits (x - y)) : T.sub x y = x - y := h

@[simp] theorem wrap_zero (T : SignedInt) : T.wrap 0 = 0 := by
  cases T <;> simp [wrap]

/-- Reducing an operand first does not change the reduced sum. -/
theorem wrap_wrap_add (T : SignedInt) (x y : Int) : T.wrap (T.wrap x + y) = T.wrap (x + y) := by
  cases T with
  | unbounded => rfl
  | bits width => exact Int.bmod_add_bmod

theorem fits_wrap (T : SignedInt) (x : Int) : T.Fits (T.wrap x) := by
  simpa only [Fits, Int.add_zero] using wrap_wrap_add T x 0

theorem wrap_wrap_sub (T : SignedInt) (x y : Int) : T.wrap (T.wrap x - y) = T.wrap (x - y) := by
  simpa only [Int.sub_eq_add_neg] using wrap_wrap_add T x (-y)

/-- Between zero and a value of the type lie only values of the type. -/
theorem Fits.of_le (h : T.Fits y) (hx : 0 ≤ x) (hle : x ≤ y) : T.Fits x := by
  cases T with
  | unbounded => rfl
  | bits width =>
    have hpos : 0 < 2 ^ width := Nat.two_pow_pos width
    have hy : y < ((2 ^ width : Nat) + 1) / 2 := by
      have hlt := Int.bmod_lt (x := y) hpos
      rwa [show y.bmod (2 ^ width) = y from h] at hlt
    exact Int.bmod_eq_of_le (by omega) (by omega)

/-- The values of two's complement of a width. -/
theorem fits_bits_iff {width : Nat} :
    (bits (width + 1)).Fits x ↔ -2 ^ width ≤ x ∧ x < 2 ^ width := by
  obtain ⟨half, hhalf⟩ : ∃ half : Nat, half = 2 ^ width := ⟨_, rfl⟩
  have hpos : 0 < half := hhalf ▸ Nat.two_pow_pos width
  have hdouble : 2 ^ (width + 1) = 2 * half := by rw [hhalf, Nat.pow_succ, Nat.mul_comm]
  have hcast : (2 : Int) ^ width = half := by rw [hhalf, Int.natCast_pow, Int.cast_ofNat_Int]
  rw [Fits, wrap, hdouble, hcast]
  constructor
  · intro h
    have hlow := Int.le_bmod (x := x) (m := 2 * half) (by omega)
    have hhigh := Int.bmod_lt (x := x) (m := 2 * half) (by omega)
    omega
  · rintro ⟨hlow, hhigh⟩
    exact Int.bmod_eq_of_le (by omega) (by omega)

/-- The 64-bit signed type. -/
abbrev int64 : SignedInt := bits 64

theorem fits_int64_iff : int64.Fits x ↔ -2 ^ 63 ≤ x ∧ x < 2 ^ 63 := fits_bits_iff

theorem fits_int64_of_lt (hx : 0 ≤ x) (h : x < 2 ^ 63) : int64.Fits x :=
  fits_int64_iff.mpr ⟨by omega, h⟩

end SignedInt
