import Mathlib.MeasureTheory.Measure.Real
import Mathlib.MeasureTheory.Measure.Typeclasses.Probability
import Mathlib.Order.CompletePartialOrder
import Mathlib.Probability.Independence.Basic
import Mathlib.Tactic.FieldSimp

/-!
# Reservoir sampling

A reservoir of `k` slots takes the first `k` items of a stream in order, and draws a number for every
later one: the item after `k + j` items takes the slot the draw `j` names, where there is one.
`positions` follows the positions in the stream of the items that are held, which do not depend on the
items themselves.

The law is about draws that are independent and uniform. A slot and the next draw are independent, as
what a slot holds depends on the draws before; so a draw leaves a slot alone with the same probability
whatever it holds, and the probabilities of a position over the slots shrink together.
-/

namespace ReservoirSampling

open MeasureTheory ProbabilityTheory

/-- The positions held after `n` items, slot by slot. -/
def positions (k : ℕ) (draws : (j : ℕ) → Fin (k + j + 1)) : ℕ → List ℕ
  | 0 => []
  | n + 1 =>
      if n < k then positions k draws n ++ [n] else (positions k draws n).set (draws (n - k)) n

section Positions

variable {k : ℕ} {draws : (j : ℕ) → Fin (k + j + 1)}

theorem positions_fill {n : ℕ} (hn : n ≤ k) : positions k draws n = List.range n := by
  induction n with
  | zero => rfl
  | succ n ih => rw [positions, if_pos (Nat.lt_of_succ_le hn), ih (Nat.le_of_succ_le hn), List.range_succ]

theorem positions_replace (j : ℕ) :
    positions k draws (k + (j + 1)) = (positions k draws (k + j)).set (draws j) (k + j) := by
  change positions k draws (k + j + 1) = _
  rw [positions, if_neg (by omega), Nat.add_sub_cancel_left]

@[simp] theorem length_positions (n : ℕ) : (positions k draws n).length = min n k := by
  induction n with
  | zero => simp [positions]
  | succ n ih =>
    rw [positions]
    split
    · rw [List.length_append, ih, List.length_singleton]
      omega
    · rw [List.length_set, ih]
      omega

theorem lt_of_mem_positions {n p : ℕ} (hp : p ∈ positions k draws n) : p < n := by
  induction n with
  | zero => cases hp
  | succ n ih =>
    rw [positions] at hp
    split at hp
    · rcases List.mem_append.mp hp with hp | hp
      · exact Nat.lt_succ_of_lt (ih hp)
      · exact (List.mem_singleton.mp hp).trans_lt (Nat.lt_succ_self n)
    · rcases List.mem_or_eq_of_mem_set hp with hp | rfl
      · exact Nat.lt_succ_of_lt (ih hp)
      · exact Nat.lt_succ_self p

theorem nodup_positions (n : ℕ) : (positions k draws n).Nodup := by
  induction n with
  | zero => exact List.nodup_nil
  | succ n ih =>
    have hfresh : n ∉ positions k draws n := fun hn => (lt_of_mem_positions hn).false
    rw [positions]
    split
    · exact List.nodup_append.mpr ⟨ih, List.nodup_singleton n, fun p hp q hq =>
        List.mem_singleton.mp hq ▸ (lt_of_mem_positions hp).ne⟩
    · exact ih.set hfresh

end Positions

/-! ### The law -/

section Law

variable {Ω : Type*} {k m j i p : ℕ} {D : (j : ℕ) → Ω → Fin (k + j + 1)}

/-- After `j` draws the slot `i` holds the position `p`. -/
def holds (D : (j : ℕ) → Ω → Fin (k + j + 1)) (j i p : ℕ) : Set Ω :=
  {ω | (positions k (fun j => D j ω) (k + j))[i]? = some p}

/-- The events the first `j` draws decide. -/
@[reducible] def past (m : ℕ) (D : (j : ℕ) → Ω → Fin (k + j + 1)) (j : ℕ) : MeasurableSpace Ω :=
  ⨆ i ∈ {i : Fin m | i.val < j}, MeasurableSpace.comap (D i) inferInstance

theorem holds_zero : holds D 0 i p = {_ω | (List.range k)[i]? = some p} := by
  ext ω
  simp [holds, positions_fill]

/-- The newest item is in the slot the draw names. -/
theorem holds_newest (hi : i < k) :
    holds D (j + 1) i (k + j) = {ω | D j ω = ⟨i, by omega⟩} := by
  ext ω
  have hold : (positions k (fun j => D j ω) (k + j))[i]? ≠ some (k + j) := fun h =>
    (lt_of_mem_positions (List.mem_of_getElem? h)).false
  simp only [holds, Set.mem_ofPred_eq, positions_replace, List.getElem?_set, length_positions,
    Fin.ext_iff]
  split <;> simp_all

/-- An older item stays in a slot the draw does not name. -/
theorem holds_older (hi : i < k) (hp : p ≠ k + j) :
    holds D (j + 1) i p = holds D j i p \ {ω | D j ω = ⟨i, by omega⟩} := by
  ext ω
  simp only [holds, Set.mem_sdiff, Set.mem_ofPred_eq, positions_replace, List.getElem?_set,
    length_positions, Fin.ext_iff]
  split <;> simp_all [eq_comm]

theorem past_mono {j' : ℕ} (h : j ≤ j') : past m D j ≤ past m D j' :=
  biSup_mono fun _ hi => lt_of_lt_of_le hi h

theorem measurableSet_draw (hj : j < m) (i : Fin (k + j + 1)) :
    MeasurableSet[past m D (j + 1)] {ω | D j ω = i} := by
  have hcomap : MeasurableSet[MeasurableSpace.comap (D j) inferInstance] {ω | D j ω = i} :=
    ⟨{i}, MeasurableSet.singleton i, Set.ext fun ω => Iff.rfl⟩
  have hle : MeasurableSpace.comap (D j) inferInstance ≤ past m D (j + 1) :=
    le_biSup (fun i : Fin m => MeasurableSpace.comap (D i) inferInstance)
      (i := ⟨j, hj⟩) (Nat.lt_succ_self j)
  exact hle _ hcomap

/-- What a slot holds is decided by the draws before. -/
theorem measurableSet_holds (hj : j ≤ m) (hi : i < k) : MeasurableSet[past m D j] (holds D j i p) := by
  induction j generalizing p with
  | zero =>
    rw [holds_zero]
    exact MeasurableSet.const _
  | succ j ih =>
    rcases eq_or_ne p (k + j) with rfl | hp
    · rw [holds_newest hi]
      exact measurableSet_draw hj _
    · rw [holds_older hi hp]
      exact (past_mono (Nat.le_succ j) _ (ih (Nat.le_of_succ_le hj))).diff (measurableSet_draw hj _)

variable [MeasurableSpace Ω] {μ : Measure Ω}

/-- `m` draws, independent of each other and each uniform over its range. -/
structure FairDraws (μ : Measure Ω) (m : ℕ) (D : (j : ℕ) → Ω → Fin (k + j + 1)) : Prop where
  measurable : ∀ j < m, Measurable (D j)
  indep : iIndepFun (fun j : Fin m => D j) μ
  uniform : ∀ j < m, ∀ i, μ.real {ω | D j ω = i} = 1 / ((k + j + 1 : ℕ) : ℝ)

namespace FairDraws

theorem past_le (h : FairDraws μ m D) (j : ℕ) : past m D j ≤ ‹MeasurableSpace Ω› :=
  iSup₂_le fun i _ => (h.measurable i i.isLt).comap_le

theorem measurable_holds (h : FairDraws μ m D) (hj : j ≤ m) (hi : i < k) :
    MeasurableSet (holds D j i p) :=
  h.past_le j _ (measurableSet_holds hj hi)

/-- What a slot holds is independent of the next draw. -/
theorem indep_next (h : FairDraws μ m D) (hj : j < m) :
    Indep (past m D j) (MeasurableSpace.comap (D j) inferInstance) μ := by
  have hdisjoint : Disjoint {i : Fin m | i.val < j} {⟨j, hj⟩} := by
    rw [Set.disjoint_singleton_right]
    exact lt_irrefl j
  have hindep := indep_iSup_of_disjoint (fun i : Fin m => (h.measurable i i.isLt).comap_le)
    h.indep.iIndep hdisjoint
  rwa [iSup_singleton] at hindep

/-- A draw leaves a slot alone with the same probability whatever it holds. -/
theorem real_holds_older (h : FairDraws μ m D) (hj : j < m) (hi : i < k) (hp : p ≠ k + j) :
    μ.real (holds D (j + 1) i p) = μ.real (holds D j i p) * (1 - 1 / ((k + j + 1 : ℕ) : ℝ)) := by
  have hprobability : IsProbabilityMeasure μ := h.indep.isProbabilityMeasure
  set named : Set Ω := {ω | D j ω = ⟨i, by omega⟩} with hnamed
  have hmeasurable : MeasurableSet named := h.past_le (j + 1) _ (measurableSet_draw hj _)
  have hinter : μ.real (holds D j i p ∩ named)
      = μ.real (holds D j i p) * (1 / ((k + j + 1 : ℕ) : ℝ)) := by
    have hmul := (Indep_iff _ _ _).mp (h.indep_next hj) (holds D j i p) named
      (measurableSet_holds hj.le hi) ⟨{⟨i, by omega⟩}, MeasurableSet.singleton _, rfl⟩
    rw [measureReal_def, hmul, ENNReal.toReal_mul, ← measureReal_def, ← measureReal_def, hnamed,
      h.uniform j hj]
  have hsplit : μ.real (holds D j i p \ named) + μ.real (holds D j i p ∩ named)
      = μ.real (holds D j i p) := measureReal_sdiff_add_inter hmeasurable
  rw [holds_older hi hp, ← hnamed, mul_sub, mul_one, ← hinter, ← hsplit, add_sub_cancel_right]

/-- Over all slots, a position is held with probability `k` in the number of items. -/
theorem sum_real_holds (h : FairDraws μ m D) (hj : j ≤ m) (hp : p < k + j) :
    ∑ i ∈ Finset.range k, μ.real (holds D j i p) = (k : ℝ) / ((k + j : ℕ) : ℝ) := by
  have hprobability : IsProbabilityMeasure μ := h.indep.isProbabilityMeasure
  induction j with
  | zero =>
    have hslot : ∀ i ∈ Finset.range k, μ.real (holds D 0 i p) = if i = p then 1 else 0 := by
      intro i hi
      have hget : (List.range k)[i]? = some i := by simp [Finset.mem_range.mp hi]
      rw [holds_zero, hget]
      split <;> simp_all
    have hk : (k : ℝ) ≠ 0 := Nat.cast_ne_zero.mpr (by omega)
    rw [Nat.add_zero] at hp ⊢
    rw [Finset.sum_congr rfl hslot, Finset.sum_ite_eq', if_pos (Finset.mem_range.mpr hp),
      div_self hk]
  | succ j ih =>
    rcases eq_or_ne p (k + j) with rfl | hne
    · have hslot : ∀ i ∈ Finset.range k,
          μ.real (holds D (j + 1) i (k + j)) = 1 / ((k + j + 1 : ℕ) : ℝ) := by
        intro i hi
        rw [holds_newest (Finset.mem_range.mp hi), h.uniform j hj]
      rw [Finset.sum_congr rfl hslot, Finset.sum_const, Finset.card_range, nsmul_eq_mul,
        mul_one_div, Nat.add_assoc]
    · have hslot : ∀ i ∈ Finset.range k, μ.real (holds D (j + 1) i p)
          = μ.real (holds D j i p) * (1 - 1 / ((k + j + 1 : ℕ) : ℝ)) :=
        fun i hi => h.real_holds_older hj (Finset.mem_range.mp hi) hne
      have hold : p < k + j := by omega
      have hseen : ((k + j : ℕ) : ℝ) ≠ 0 := Nat.cast_ne_zero.mpr (by omega)
      have hnext : ((k + j + 1 : ℕ) : ℝ) ≠ 0 := Nat.cast_ne_zero.mpr (by omega)
      rw [Finset.sum_congr rfl hslot, ← Finset.sum_mul, ih (Nat.le_of_succ_le hj) hold,
        ← Nat.add_assoc]
      rw [Nat.cast_succ] at hnext ⊢
      field_simp
      ring

/-- Each of the items seen is held with the same probability. -/
theorem real_mem_positions (h : FairDraws μ m D) (hj : j ≤ m) (hp : p < k + j) :
    μ.real {ω | p ∈ positions k (fun j => D j ω) (k + j)} = (k : ℝ) / ((k + j : ℕ) : ℝ) := by
  have hprobability : IsProbabilityMeasure μ := h.indep.isProbabilityMeasure
  have hunion : {ω | p ∈ positions k (fun j => D j ω) (k + j)}
      = ⋃ i ∈ Finset.range k, holds D j i p := by
    ext ω
    simp only [holds, Set.mem_iUnion, Set.mem_ofPred_eq, Finset.mem_range, exists_prop]
    constructor
    · intro hmem
      obtain ⟨i, hi, hget⟩ := List.mem_iff_getElem.mp hmem
      have hlt : i < k := by
        rw [length_positions] at hi
        omega
      exact ⟨i, hlt, List.getElem?_eq_some_iff.mpr ⟨hi, hget⟩⟩
    · intro hslot
      obtain ⟨i, -, hget⟩ := hslot
      exact List.mem_of_getElem? hget
  have hdisjoint : (Finset.range k : Set ℕ).PairwiseDisjoint fun i => holds D j i p := by
    intro i hi i' hi' hne
    refine Set.disjoint_left.mpr fun ω hholds hholds' => hne ?_
    have hlt : i < (positions k (fun j => D j ω) (k + j)).length := by
      have := Finset.mem_range.mp hi
      rw [length_positions]
      omega
    exact (List.getElem?_inj hlt (nodup_positions (k + j))).mp (hholds.trans hholds'.symm)
  have hmeasurable : ∀ i ∈ Finset.range k, MeasurableSet (holds D j i p) :=
    fun i hi => h.measurable_holds hj (Finset.mem_range.mp hi)
  rw [hunion, measureReal_biUnion_finset hdisjoint hmeasurable, h.sum_real_holds hj hp]

end FairDraws

end Law

end ReservoirSampling
