import MatchingEngine.Lib.Interleaving

/-!
# Fair schedules

A schedule without an end is fair to a thread that it lets move again and again. Where there is always a
thread whose moves bring the end closer, and whose way the moves of the others do not make longer, every
schedule that is fair to such threads comes to the end (`Helped.eventually`).
-/

namespace Interleaving

variable {σ ι ε γ β : Type*}

/-- The first `n` moves of a schedule without an end. -/
def moves (schedule : ℕ → ι) (n : ℕ) : List ι := (List.range n).map schedule

theorem moves_succ (schedule : ℕ → ι) (n : ℕ) :
    moves schedule (n + 1) = schedule 0 :: moves (fun m => schedule (m + 1)) n := by
  simp only [moves, List.range_succ_eq_map, List.map_cons, List.map_map]
  rfl

/-- Each of these threads moves again and again. -/
def Fair (P : ι → Prop) (schedule : ℕ → ι) : Prop := ∀ i, P i → ∀ n, ∃ m, n ≤ m ∧ schedule m = i

theorem Fair.tail {P : ι → Prop} {schedule : ℕ → ι} (h : Fair P schedule) :
    Fair P fun n => schedule (n + 1) := by
  intro i hi n
  obtain ⟨m, hle, hm⟩ := h i hi (n + 1)
  obtain ⟨m, rfl⟩ : ∃ k, m = k + 1 := ⟨m - 1, by omega⟩
  exact ⟨m, Nat.le_of_succ_le_succ hle, hm⟩

/-- Every state short of the end has a thread in `P` that helps. What it is at stands in an abstract state
that goes along. A move of a thread in `Q` does not bring the rank up, and where it does not bring it down
either, a thread that helps keeps helping and is no further from bringing it down; nearer, if the move was
its own. -/
structure Helped [Preorder β] (step : σ → ι → σ × List ε) (P Q : ι → Prop) (Done : σ → Prop)
    (R : σ → γ → Prop) (rank : γ → β) (Helps : γ → ι → Prop) (pace : σ → γ → ι → ℕ) : Prop where
  exists_helps : ∀ {s a}, R s a → ¬ Done s → ∃ i, P i ∧ Helps a i
  step : ∀ {s a}, R s a → ∀ j, Q j → ∃ a', R (step s j).1 a' ∧ rank a' ≤ rank a ∧
    ∀ i, Helps a i → rank a' < rank a ∨ Helps a' i ∧ pace (step s j).1 a' i ≤ pace s a i ∧
      (j = i → pace (step s j).1 a' i < pace s a i)

/-- A move brings the rank down, or changes for the other threads neither whether they help nor at what
pace, and for its own, if it helps, only the pace. -/
def Approaches [Preorder β] (rank : σ → β) (Helps : σ → ι → Prop) (pace : σ → ι → ℕ) (s s' : σ) (i : ι) :
    Prop :=
  rank s' < rank s ∨
    rank s' = rank s ∧
      (∀ j, j ≠ i → (Helps s' j ↔ Helps s j) ∧ pace s' j = pace s j) ∧
      (Helps s i → Helps s' i ∧ pace s' i < pace s i)

variable {step : σ → ι → σ × List ε} {Done : σ → Prop} {schedule : ℕ → ι}

theorem exists_done_of_tail {s : σ}
    (h : ∃ n, Done (run step (step s (schedule 0)).1 (moves (fun n => schedule (n + 1)) n)).1) :
    ∃ n, Done (run step s (moves schedule n)).1 := by
  obtain ⟨n, hn⟩ := h
  refine ⟨n + 1, ?_⟩
  rwa [moves_succ, run_cons]

namespace Helped

variable [Preorder β] {P Q : ι → Prop} {R : σ → γ → Prop} {rank : γ → β} {Helps : γ → ι → Prop}
  {pace : σ → γ → ι → ℕ} {s : σ} {a : γ} {i : ι}

/-- As long as the rank is not down the thread keeps helping, and it is nearer each time it has moved. -/
theorem eventually_of_helps (h : Helped step P Q Done R rank Helps pace) (hs : R s a) (hhelps : Helps a i)
    (hi : P i)
    (hlower : ∀ {s' a' schedule'}, R s' a' → rank a' < rank a → Fair P schedule' →
      (∀ n, Q (schedule' n)) → ∃ n, Done (run step s' (moves schedule' n)).1)
    (hfair : Fair P schedule) (hmoves : ∀ n, Q (schedule n)) : ∃ n, Done (run step s (moves schedule n)).1 := by
  induction hpace : pace s a i using Nat.strongRecOn generalizing s a schedule with
  | ind p ih =>
    obtain ⟨m, -, hm⟩ := hfair i hi 0
    induction m generalizing s a schedule with
    | zero =>
      apply exists_done_of_tail
      obtain ⟨a', hs', hle, hnext⟩ := h.step hs (schedule 0) (hmoves 0)
      obtain hlt | ⟨hhelps', -, hpace'⟩ := hnext i hhelps
      · exact hlower hs' hlt hfair.tail fun n => hmoves (n + 1)
      · exact ih _ (hpace ▸ hpace' hm) hs' hhelps'
          (fun hs'' hlt => hlower hs'' (hlt.trans_le hle)) hfair.tail (fun n => hmoves (n + 1)) rfl
    | succ m ihm =>
      apply exists_done_of_tail
      obtain ⟨a', hs', hle, hnext⟩ := h.step hs (schedule 0) (hmoves 0)
      obtain hlt | ⟨hhelps', hpace', -⟩ := hnext i hhelps
      · exact hlower hs' hlt hfair.tail fun n => hmoves (n + 1)
      · rw [hpace] at hpace'
        rcases Nat.lt_or_eq_of_le hpace' with hlt | heq
        · exact ih _ hlt hs' hhelps' (fun hs'' hlt => hlower hs'' (hlt.trans_le hle)) hfair.tail
            (fun n => hmoves (n + 1)) rfl
        · exact ihm hs' hhelps' (fun hs'' hlt => hlower hs'' (hlt.trans_le hle)) hfair.tail
            (fun n => hmoves (n + 1)) heq hm

/-- **Every fair schedule comes to the end.** -/
theorem eventually [WellFoundedLT β] (h : Helped step P Q Done R rank Helps pace) (hs : R s a)
    (hfair : Fair P schedule) (hmoves : ∀ n, Q (schedule n)) :
    ∃ n, Done (run step s (moves schedule n)).1 := by
  induction hlevel : rank a using WellFoundedLT.induction generalizing s a schedule with
  | ind level ih =>
    subst hlevel
    by_cases hdone : Done s
    · exact ⟨0, hdone⟩
    obtain ⟨i, hi, hhelps⟩ := h.exists_helps hs hdone
    exact h.eventually_of_helps hs hhelps hi
      (fun hs' hlt hfair' hmoves' => ih _ hlt hs' hfair' hmoves' rfl) hfair hmoves

/-- What is at stands in the state itself, and every step approaches the end. -/
theorem of_approaches {Inv : σ → Prop} {rank : σ → β} {Helps : σ → ι → Prop} {pace : σ → ι → ℕ}
    (hexists : ∀ {s}, Inv s → ¬ Done s → ∃ i, P i ∧ Helps s i)
    (hinv : ∀ {s}, Inv s → ∀ i, Q i → Inv (step s i).1)
    (happroaches : ∀ {s}, Inv s → ∀ i, Q i → Approaches rank Helps pace s (step s i).1 i) :
    Helped step P Q Done (fun s a => s = a ∧ Inv a) rank Helps (fun _ a => pace a) where
  exists_helps := by
    rintro s a ⟨rfl, h⟩ hnot
    exact hexists h hnot
  step := by
    rintro s a ⟨rfl, h⟩ j hj
    refine ⟨(step s j).1, ⟨rfl, hinv h j hj⟩, ?_⟩
    rcases happroaches h j hj with hlt | ⟨heq, hothers, hown⟩
    · exact ⟨hlt.le, fun _ _ => Or.inl hlt⟩
    · refine ⟨heq.le, fun i hhelps => Or.inr ?_⟩
      by_cases hi : i = j
      · subst hi
        obtain ⟨hhelps', hpace⟩ := hown hhelps
        exact ⟨hhelps', hpace.le, fun _ => hpace⟩
      · obtain ⟨hiff, hpace⟩ := hothers i hi
        exact ⟨hiff.mpr hhelps, hpace.le, fun hsame => absurd hsame.symm hi⟩

/-- A thread that takes so many steps at most for each step of another system helps where it helps
there. -/
theorem of_stuttering {τ δ : Type*} {step' : τ → ι → τ × List δ} {Done' : τ → Prop} {R : τ → γ → Prop}
    {pace : τ → γ → ι → ℕ} (h : Helped step' P Q Done' R rank Helps pace) {S : σ → τ → Prop}
    (left : σ → ι → ℕ) (bound : ℕ) (hdone : ∀ {s t}, S s t → Done' t → Done s)
    (hbound : ∀ s i, left s i ≤ bound)
    (hothers : ∀ s {i j}, i ≠ j → left (step s j).1 i = left s i)
    (hstep : ∀ {s t}, S s t → ∀ j, S (step s j).1 t ∧ left (step s j).1 j < left s j ∨
      S (step s j).1 (step' t j).1) :
    Helped step P Q Done (fun s a => S s a.1 ∧ R a.1 a.2) (fun a : τ × γ => rank a.2)
      (fun a => Helps a.2) (fun s a i => (bound + 1) * pace a.1 a.2 i + left s i) where
  exists_helps := by
    rintro s ⟨t, a⟩ ⟨hs, ht⟩ hnot
    exact h.exists_helps ht fun hdone' => hnot (hdone hs hdone')
  step := by
    rintro s ⟨t, a⟩ ⟨hs, ht⟩ j hmove
    rcases hstep hs j with ⟨hs', hlt⟩ | hs'
    · refine ⟨(t, a), ⟨hs', ht⟩, le_refl _, fun i hhelps => Or.inr ⟨hhelps, ?_, ?_⟩⟩
      · by_cases hi : i = j
        · rw [hi]
          exact Nat.add_le_add_left hlt.le _
        · rw [hothers s hi]
      · rintro rfl
        exact Nat.add_lt_add_left hlt _
    · obtain ⟨a', ht', hle, hnext⟩ := h.step ht j hmove
      refine ⟨((step' t j).1, a'), ⟨hs', ht'⟩, hle, fun i hhelps => (hnext i hhelps).imp id ?_⟩
      rintro ⟨hhelps', hpace, hown⟩
      -- the steps for one step of the other system are outweighed by that step
      have hlt : j = i → (bound + 1) * pace (step' t j).1 a' i + left (step s j).1 i
          < (bound + 1) * pace t a i + left s i := by
        intro hj
        calc (bound + 1) * pace (step' t j).1 a' i + left (step s j).1 i
            < (bound + 1) * pace (step' t j).1 a' i + (bound + 1) :=
              Nat.add_lt_add_left (Nat.lt_succ_of_le (hbound ..)) _
          _ = (bound + 1) * (pace (step' t j).1 a' i + 1) := by rw [Nat.mul_succ]
          _ ≤ (bound + 1) * pace t a i := Nat.mul_le_mul_left _ (hown hj)
          _ ≤ (bound + 1) * pace t a i + left s i := Nat.le_add_right ..
      refine ⟨hhelps', ?_, hlt⟩
      by_cases hj : j = i
      · exact (hlt hj).le
      · rw [hothers s (Ne.symm hj)]
        exact Nat.add_le_add_right (Nat.mul_le_mul_left _ hpace) _

end Helped

end Interleaving
