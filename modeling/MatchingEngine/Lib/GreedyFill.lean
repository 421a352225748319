import Mathlib.Algebra.BigOperators.Group.List.Basic
import Mathlib.Algebra.Order.Group.Int
import Mathlib.Tactic.Linarith

/-!
# Filling a demand from a queue

A demand is met from the front of a queue of divisible items: each item in turn is taken whole as
long as the demand reaches, the item the demand runs out in is taken in part and keeps its place,
and the items behind it are not touched. `takes` lists what is taken from whom, `left` is the queue
afterwards.

Both are homomorphic in the queue: filling from one queue and then from a second is filling from
the two in sequence (`takes_append`, `left_append`). A walk that is broken up by whatever groups the
items are kept in therefore computes the same thing as the walk over all of them.
-/

/-- Items that can be taken in part. -/
class Divisible (α : Type*) where
  amount : α → Int
  withAmount : Int → α → α
  amount_withAmount : ∀ q a, amount (withAmount q a) = q

namespace Divisible

attribute [simp] amount_withAmount

variable {α β : Type*} [Divisible α] {os as bs : List α} {o : α} {q t : Int}

def total (os : List α) : Int := (os.map amount).sum

def Positive (os : List α) : Prop := ∀ o ∈ os, 0 < amount o

/-- What a demand takes, from whom, in order. -/
def takes (q : Int) : List α → List (α × Int)
  | [] => []
  | o :: os => if 0 < q then (o, min q (amount o)) :: takes (q - amount o) os else []

/-- The queue after a demand. -/
def left (q : Int) : List α → List α
  | [] => []
  | o :: os =>
    if q ≤ 0 then o :: os
    else if q < amount o then withAmount (amount o - q) o :: os
    else left (q - amount o) os

@[simp] theorem total_nil : total ([] : List α) = 0 := rfl

@[simp] theorem total_cons (o : α) (os : List α) : total (o :: os) = amount o + total os := by
  simp [total]

@[simp] theorem total_append (as bs : List α) : total (as ++ bs) = total as + total bs := by
  simp [total]

theorem positive_cons : Positive (o :: os) ↔ 0 < amount o ∧ Positive os := by
  simp [Positive]

theorem positive_append : Positive (as ++ bs) ↔ Positive as ∧ Positive bs := by
  simp only [Positive, List.mem_append]
  exact ⟨fun h => ⟨fun o ho => h o (Or.inl ho), fun o ho => h o (Or.inr ho)⟩,
    fun h o ho => ho.elim (h.1 o) (h.2 o)⟩

theorem Positive.total_nonneg (h : Positive os) : 0 ≤ total os := by
  induction os with
  | nil => simp
  | cons o os ih =>
    obtain ⟨ho, hos⟩ := positive_cons.mp h
    have := ih hos
    rw [total_cons]
    omega

theorem Positive.total_le_of_sublist (h : Positive bs) (hsub : as.Sublist bs) : total as ≤ total bs := by
  induction hsub with
  | slnil => exact le_refl _
  | cons o _ ih =>
    obtain ⟨ho, hbs⟩ := positive_cons.mp h
    have hle := ih hbs
    rw [total_cons]
    omega
  | cons_cons o _ ih =>
    rw [total_cons, total_cons]
    exact Int.add_le_add_left (ih (positive_cons.mp h).2) _

theorem takes_of_nonpos (hq : q ≤ 0) (os : List α) : takes q os = [] := by
  cases os with
  | nil => rfl
  | cons o os => rw [takes, if_neg (by omega)]

theorem left_of_nonpos (hq : q ≤ 0) (os : List α) : left q os = os := by
  cases os with
  | nil => rfl
  | cons o os => rw [left, if_pos hq]

theorem length_takes_le (q : Int) (os : List α) : (takes q os).length ≤ os.length := by
  induction os generalizing q with
  | nil => exact le_refl 0
  | cons o os ih =>
    rw [takes]
    split
    · exact Nat.succ_le_succ (ih _)
    · exact Nat.zero_le _

theorem takes_append (h : Positive as) :
    takes q (as ++ bs) = takes q as ++ takes (q - total as) bs := by
  induction as generalizing q with
  | nil => simp [takes]
  | cons o os ih =>
    obtain ⟨ho, hos⟩ := positive_cons.mp h
    have hnonneg := hos.total_nonneg
    rw [List.cons_append, takes, takes, total_cons]
    by_cases hq : 0 < q
    · rw [if_pos hq, if_pos hq, ih hos, List.cons_append, Int.sub_sub]
    · rw [if_neg hq, if_neg hq, takes_of_nonpos (by omega)]
      rfl

theorem left_append (h : Positive as) : left q (as ++ bs) = left q as ++ left (q - total as) bs := by
  induction as generalizing q with
  | nil => simp [left]
  | cons o os ih =>
    obtain ⟨ho, hos⟩ := positive_cons.mp h
    have hnonneg := hos.total_nonneg
    rw [List.cons_append, left, left, total_cons]
    by_cases hq : q ≤ 0
    · rw [if_pos hq, if_pos hq, left_of_nonpos (q := q - _) (by omega)]
      rfl
    · rw [if_neg hq, if_neg hq]
      by_cases hpart : q < amount o
      · rw [if_pos hpart, if_pos hpart, left_of_nonpos (q := q - _) (by omega)]
        rfl
      · rw [if_neg hpart, if_neg hpart, ih hos, Int.sub_sub]

/-- A demand for no less than there is takes something from every item. -/
theorem length_takes_of_total_le (h : Positive os) (hle : total os ≤ q) :
    (takes q os).length = os.length := by
  induction os generalizing q with
  | nil => rfl
  | cons o os ih =>
    obtain ⟨ho, hos⟩ := positive_cons.mp h
    have hnonneg := hos.total_nonneg
    rw [total_cons] at hle
    rw [takes, if_pos (by omega), List.length_cons, ih hos (by omega), List.length_cons]

/-- A demand takes all of itself or all there is. -/
theorem taken_eq_min (h : Positive os) (hq : 0 ≤ q) :
    ((takes q os).map Prod.snd).sum = min q (total os) := by
  induction os generalizing q with
  | nil => simp [takes, hq]
  | cons o os ih =>
    obtain ⟨ho, hos⟩ := positive_cons.mp h
    have hnonneg := hos.total_nonneg
    rw [takes, total_cons]
    by_cases hpos : 0 < q
    · rw [if_pos hpos, List.map_cons, List.sum_cons]
      by_cases hpart : q < amount o
      · rw [takes_of_nonpos (by omega), List.map_nil, List.sum_nil]
        omega
      · rw [ih hos (by omega)]
        omega
    · rw [if_neg hpos, List.map_nil, List.sum_nil]
      omega

/-- Whatever part of the queue one looks at, what it loses is what is taken from it. -/
theorem total_filter_left {f : α → Bool} (hf : ∀ q a, f (withAmount q a) = f a) (q : Int)
    (os : List α) :
    (((takes q os).filter fun take => f take.1).map Prod.snd).sum + total ((left q os).filter f)
      = total (os.filter f) := by
  induction os generalizing q with
  | nil => simp [takes, left]
  | cons o os ih =>
    rw [takes, left]
    by_cases hq : q ≤ 0
    · rw [if_neg (by omega), if_pos hq]
      simp
    rw [if_pos (by omega), if_neg hq]
    by_cases hpart : q < amount o
    · rw [if_pos hpart, takes_of_nonpos (by omega), min_eq_left hpart.le]
      cases hfo : f o
      · simp [hf, hfo]
      · simp [hf, hfo]
        omega
    · rw [if_neg hpart, min_eq_right (by omega)]
      have ih := ih (q - amount o)
      cases hfo : f o
      · simpa [hfo] using ih
      · simp only [hfo, List.filter_cons_of_pos, List.map_cons, List.sum_cons, total_cons]
        omega

theorem mem_takes (h : Positive os) (hmem : (o, t) ∈ takes q os) :
    o ∈ os ∧ 0 < t ∧ t ≤ amount o := by
  induction os generalizing q with
  | nil => simp [takes] at hmem
  | cons a as ih =>
    obtain ⟨ha, has⟩ := positive_cons.mp h
    rw [takes] at hmem
    split at hmem
    · rcases List.mem_cons.mp hmem with heq | hmem
      · obtain ⟨rfl, rfl⟩ := Prod.mk.inj heq
        exact ⟨List.mem_cons_self .., by omega, by omega⟩
      · obtain ⟨hos, hpos, hle⟩ := ih has hmem
        exact ⟨List.mem_cons_of_mem _ hos, hpos, hle⟩
    · simp at hmem

/-- Only the last item that a demand takes from is taken in part, and then the demand is met. -/
theorem takes_last_of_lt (h : Positive os) {before after : List (α × Int)}
    (hsplit : takes q os = before ++ (o, t) :: after) (hlt : t < amount o) :
    after = [] ∧ q < total os := by
  induction os generalizing q before with
  | nil => simp [takes] at hsplit
  | cons a as ih =>
    obtain ⟨ha, has⟩ := positive_cons.mp h
    have hnonneg := has.total_nonneg
    rw [takes] at hsplit
    rw [total_cons]
    split at hsplit
    · cases before with
      | nil =>
        rw [List.nil_append, List.cons.injEq, Prod.mk.injEq] at hsplit
        obtain ⟨⟨rfl, rfl⟩, rfl⟩ := hsplit
        exact ⟨takes_of_nonpos (by omega) _, by omega⟩
      | cons b bs =>
        obtain ⟨hafter, hq⟩ := ih has (List.cons.inj hsplit).2
        exact ⟨hafter, by omega⟩
    · simp at hsplit

/-- The items taken from are a front part of the queue. -/
theorem takes_in_order (q : Int) (os : List α) : (takes q os).map Prod.fst <+: os := by
  induction os generalizing q with
  | nil => simp [takes]
  | cons o os ih =>
    rw [takes]
    split
    · rw [List.map_cons, List.prefix_cons_inj]
      exact ih _
    · exact List.nil_prefix

/-- A part that the demand does not split off is untouched, so what is left of the queue is a back
part of it, item for item. -/
theorem map_left_suffix {g : α → β} (hg : ∀ q a, g (withAmount q a) = g a) (q : Int) (os : List α) :
    (left q os).map g <:+ os.map g := by
  induction os generalizing q with
  | nil => exact List.suffix_rfl
  | cons o os ih =>
    rw [left]
    split
    · exact List.suffix_rfl
    · split
      · simp only [List.map_cons, hg, List.suffix_rfl]
      · exact (ih _).trans (by rw [List.map_cons]; exact List.suffix_cons ..)

theorem Positive.left (h : Positive os) : Positive (left q os) := by
  induction os generalizing q with
  | nil => exact h
  | cons o os ih =>
    obtain ⟨ho, hos⟩ := positive_cons.mp h
    rw [Divisible.left]
    split
    · exact h
    · split
      · refine positive_cons.mpr ⟨?_, hos⟩
        rw [amount_withAmount]
        omega
      · exact ih hos

/-- No item grows. -/
theorem exists_of_mem_left (h : Positive os) (hmem : o ∈ Divisible.left q os) :
    ∃ a ∈ os, amount o ≤ amount a := by
  induction os generalizing q with
  | nil => simp [Divisible.left] at hmem
  | cons a as ih =>
    obtain ⟨ha, has⟩ := positive_cons.mp h
    rw [Divisible.left] at hmem
    split at hmem
    · exact ⟨o, hmem, le_refl _⟩
    · split at hmem
      · rcases List.mem_cons.mp hmem with rfl | hmem
        · exact ⟨a, List.mem_cons_self .., by rw [amount_withAmount]; omega⟩
        · exact ⟨o, List.mem_cons_of_mem _ hmem, le_refl _⟩
      · obtain ⟨p, hp, hle⟩ := ih has hmem
        exact ⟨p, List.mem_cons_of_mem _ hp, hle⟩

/-- What is left of the queue was in it, with no smaller an amount. -/
theorem exists_map_eq_of_mem_left {g : α → β} (hg : ∀ q a, g (withAmount q a) = g a) (h : Positive os)
    (hmem : o ∈ Divisible.left q os) : ∃ a ∈ os, g a = g o ∧ amount o ≤ amount a := by
  induction os generalizing q with
  | nil => simp [Divisible.left] at hmem
  | cons a as ih =>
    obtain ⟨ha, has⟩ := positive_cons.mp h
    rw [Divisible.left] at hmem
    split at hmem
    · exact ⟨o, hmem, rfl, le_refl _⟩
    · split at hmem
      · rcases List.mem_cons.mp hmem with rfl | hmem
        · refine ⟨a, List.mem_cons_self .., (hg _ _).symm, ?_⟩
          rw [amount_withAmount]
          omega
        · exact ⟨o, List.mem_cons_of_mem _ hmem, rfl, le_refl _⟩
      · obtain ⟨p, hp, hsame, hle⟩ := ih has hmem
        exact ⟨p, List.mem_cons_of_mem _ hp, hsame, hle⟩

/-- No take is of more than the demand. -/
theorem mem_takes_le (h : Positive os) (hmem : (o, t) ∈ takes q os) : t ≤ q := by
  induction os generalizing q with
  | nil => simp [takes] at hmem
  | cons a as ih =>
    obtain ⟨ha, has⟩ := positive_cons.mp h
    rw [takes] at hmem
    split at hmem
    · rcases List.mem_cons.mp hmem with heq | hmem
      · obtain ⟨rfl, rfl⟩ := Prod.mk.inj heq
        exact min_le_left _ _
      · have hle := ih has hmem
        omega
    · simp at hmem

/-- One demand after another leaves what the two together leave. -/
theorem left_left {r : Int} (hw : ∀ (s t : Int) (a : α), withAmount s (withAmount t a) = withAmount s a)
    (hq : 0 ≤ q) (hr : 0 ≤ r) (os : List α) :
    Divisible.left r (Divisible.left q os) = Divisible.left (q + r) os := by
  induction os generalizing q with
  | nil => rfl
  | cons o os ih =>
    rcases hq.eq_or_lt with rfl | hq
    · rw [left_of_nonpos (le_refl 0), Int.zero_add]
    have hfirst : ¬ q ≤ 0 := by omega
    have hboth : ¬ q + r ≤ 0 := by omega
    rw [Divisible.left, Divisible.left, if_neg hfirst, if_neg hboth]
    by_cases hpart : q < amount o
    · -- the first demand ran out in `o`, where the second goes on
      rw [if_pos hpart, Divisible.left, amount_withAmount]
      rcases hr.eq_or_lt with rfl | hr
      · rw [if_pos (le_refl 0), Int.add_zero, if_pos hpart]
      rw [if_neg (by omega)]
      by_cases hstill : q + r < amount o
      · rw [if_pos (by omega), if_pos hstill, hw, Int.sub_sub]
      · rw [if_neg (by omega), if_neg hstill]
        congr 1
        omega
    · rw [if_neg hpart, if_neg (by omega), ih (by omega)]
      congr 1
      omega

/-- A demand that runs out of items leaves none. -/
theorem left_eq_nil_iff (h : Positive os) (hne : os ≠ []) : Divisible.left q os = [] ↔ total os ≤ q := by
  induction os generalizing q with
  | nil => exact absurd rfl hne
  | cons o os ih =>
    obtain ⟨ho, hos⟩ := positive_cons.mp h
    have hnonneg := hos.total_nonneg
    rw [Divisible.left, total_cons]
    by_cases hq : q ≤ 0
    · rw [if_pos hq]
      simp only [reduceCtorEq, false_iff]
      omega
    · rw [if_neg hq]
      by_cases hpart : q < amount o
      · rw [if_pos hpart]
        simp only [reduceCtorEq, false_iff]
        omega
      · rw [if_neg hpart]
        by_cases hnil : os = []
        · subst hnil
          simp [Divisible.left]
          omega
        · rw [ih hos hnil]
          omega

/-! ### Items that nothing is taken from

A demand does not see an item that it takes nothing from, so the item may as well not be there. -/

section Kept

variable {f : α → Bool}

theorem takes_filter (hkept : ∀ take ∈ takes q os, f take.1 = true) :
    takes q (os.filter f) = takes q os := by
  induction os generalizing q with
  | nil => rfl
  | cons o os ih =>
    by_cases hq : 0 < q
    · rw [takes, if_pos hq] at hkept ⊢
      obtain ⟨ho, hos⟩ := List.forall_mem_cons.mp hkept
      rw [List.filter_cons_of_pos ho, takes, if_pos hq, ih hos]
    · rw [takes_of_nonpos (not_lt.mp hq), takes_of_nonpos (not_lt.mp hq)]

theorem left_filter (hf : ∀ q a, f (withAmount q a) = f a) (hkept : ∀ take ∈ takes q os, f take.1 = true) :
    left q (os.filter f) = (left q os).filter f := by
  induction os generalizing q with
  | nil => rfl
  | cons o os ih =>
    by_cases hq : q ≤ 0
    · rw [left_of_nonpos hq, left_of_nonpos hq]
    · rw [takes, if_pos (not_le.mp hq)] at hkept
      obtain ⟨ho, hos⟩ := List.forall_mem_cons.mp hkept
      rw [List.filter_cons_of_pos ho, left, left, if_neg hq, if_neg hq]
      by_cases hpart : q < amount o
      · rw [if_pos hpart, if_pos hpart, List.filter_cons_of_pos ((hf _ o).trans ho)]
      · rw [if_neg hpart, if_neg hpart, ih hos]

theorem min_total_filter (h : Positive os) (hq : 0 ≤ q) (hkept : ∀ take ∈ takes q os, f take.1 = true) :
    min q (total (os.filter f)) = min q (total os) := by
  have hfilter : Positive (os.filter f) := fun o ho => h o (List.mem_of_mem_filter ho)
  rw [← taken_eq_min hfilter hq, takes_filter hkept, taken_eq_min h hq]

theorem mem_left_of_not_taken (ho : o ∈ os) (hkept : ∀ take ∈ takes q os, take.1 ≠ o) : o ∈ left q os := by
  induction os generalizing q with
  | nil => cases ho
  | cons a as ih =>
    by_cases hq : q ≤ 0
    · rwa [left_of_nonpos hq]
    · rw [takes, if_pos (not_le.mp hq)] at hkept
      obtain ⟨ha, has⟩ := List.forall_mem_cons.mp hkept
      have hmem : o ∈ as := (List.mem_cons.mp ho).resolve_left ha.symm
      rw [left, if_neg hq]
      split
      · exact List.mem_cons_of_mem _ hmem
      · exact ih hmem has

end Kept

/-! ### Another unit

A change of items that multiplies every amount by the same factor changes what a demand does to a
queue by that factor. -/

/-- A change of items that counts the amount of each in another unit. -/
structure Scales [Divisible β] (k : Int) (f : α → β) : Prop where
  amount : ∀ a, amount (f a) = k * amount a
  withAmount : ∀ q a, withAmount (k * q) (f a) = f (withAmount q a)

namespace Scales

variable [Divisible β] {k : Int} {f : α → β}

theorem total_map (h : Scales k f) (os : List α) : total (os.map f) = k * total os := by
  induction os with
  | nil => simp
  | cons o os ih => rw [List.map_cons, total_cons, total_cons, ih, h.amount, Int.mul_add]

theorem takes_map (h : Scales k f) (hk : 0 < k) (q : Int) (os : List α) :
    takes (k * q) (os.map f) = (takes q os).map fun take => (f take.1, k * take.2) := by
  induction os generalizing q with
  | nil => rfl
  | cons o os ih =>
    have hpos : 0 < k * q ↔ 0 < q := mul_pos_iff_of_pos_left hk
    have hmin : min (k * q) (k * Divisible.amount o) = k * min q (Divisible.amount o) :=
      (mul_min_of_nonneg q _ hk.le).symm
    rw [List.map_cons, takes, takes, h.amount, ← Int.mul_sub, ih, hmin]
    by_cases hq : 0 < q
    · rw [if_pos hq, if_pos (hpos.mpr hq)]
      rfl
    · rw [if_neg hq, if_neg (mt hpos.mp hq)]
      rfl

theorem left_map (h : Scales k f) (hk : 0 < k) (q : Int) (os : List α) :
    left (k * q) (os.map f) = (left q os).map f := by
  induction os generalizing q with
  | nil => rfl
  | cons o os ih =>
    have hnonpos : k * q ≤ 0 ↔ q ≤ 0 := not_lt.symm.trans ((mul_pos_iff_of_pos_left hk).not.trans not_lt)
    have hlt : k * q < k * Divisible.amount o ↔ q < Divisible.amount o := Int.mul_lt_mul_left hk
    rw [List.map_cons, left, left, h.amount, ← Int.mul_sub, ← Int.mul_sub, ih, h.withAmount]
    simp only [hnonpos, hlt, apply_ite (List.map f), List.map_cons]

end Scales

end Divisible
