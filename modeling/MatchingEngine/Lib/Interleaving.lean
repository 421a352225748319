import Mathlib.Data.List.Induction
import Mathlib.Order.OrderIsoNat

/-!
# Interleavings

Threads that take turns on a shared state. Each step is one thread's next atomic action; it changes
the state and reports what others can observe. Which thread moves when is a schedule, and a statement
about every schedule is one about every interleaving.
-/

namespace Interleaving

variable {σ ι ε : Type*} (step : σ → ι → σ × List ε)

/-- The state after a schedule, and what was reported on the way. -/
def run : σ → List ι → σ × List ε
  | s, [] => (s, [])
  | s, i :: is =>
    let (s, reported) := step s i
    let (s, later) := run s is
    (s, reported ++ later)

theorem run_cons (s : σ) (i : ι) (is : List ι) :
    run step s (i :: is)
      = ((run step (step s i).1 is).1, (step s i).2 ++ (run step (step s i).1 is).2) := rfl

theorem run_singleton (s : σ) (i : ι) : run step s [i] = step s i := by
  rw [run_cons, run, List.append_nil]

theorem run_append (s : σ) (is js : List ι) :
    run step s (is ++ js) = ((run step (run step s is).1 js).1,
      (run step s is).2 ++ (run step (run step s is).1 js).2) := by
  induction is generalizing s with
  | nil => rfl
  | cons i is ih => simp only [List.cons_append, run, ih, List.append_assoc]

theorem run_concat (s : σ) (is : List ι) (i : ι) :
    run step s (is ++ [i]) = ((step (run step s is).1 i).1,
      (run step s is).2 ++ (step (run step s is).1 i).2) := by
  rw [run_append]
  simp only [run, List.append_nil]

/-- What holds at first and is kept by every step holds under every schedule. -/
theorem run_invariant {P : σ → List ε → Prop} {s : σ} (hinit : P s [])
    (hstep : ∀ s reported i, P s reported → P (step s i).1 (reported ++ (step s i).2))
    (is : List ι) : P (run step s is).1 (run step s is).2 := by
  induction is using List.reverseRecOn with
  | nil => exact hinit
  | append_singleton is i ih =>
    rw [run_concat]
    exact hstep _ _ i ih

/-! ### Counting steps -/

/-- How many steps of a schedule satisfy `P` where they are made. -/
def count (P : σ → ι → Bool) : σ → List ι → Nat
  | _, [] => 0
  | s, i :: is => (if P s i then 1 else 0) + count P (step s i).1 is

theorem count_append (P : σ → ι → Bool) (s : σ) (is js : List ι) :
    count step P s (is ++ js) = count step P s is + count step P (run step s is).1 js := by
  induction is generalizing s with
  | nil => rw [List.nil_append, count, Nat.zero_add, run]
  | cons i is ih => rw [List.cons_append, count, count, ih, run, Nat.add_assoc]

/-- Where every step that counts is paid for, no more of them are made than there is credit. -/
theorem count_le {P : σ → ι → Bool} {Inv : σ → Prop} (credit : σ → Nat)
    (hinv : ∀ s i, Inv s → Inv (step s i).1)
    (hcredit : ∀ s i, Inv s → (if P s i then 1 else 0) + credit (step s i).1 ≤ credit s) {s : σ}
    (hs : Inv s) (is : List ι) : count step P s is ≤ credit s := by
  induction is generalizing s with
  | nil => exact Nat.zero_le _
  | cons i is ih =>
    rw [count]
    have hrest := ih (hinv s i hs)
    have hpaid := hcredit s i hs
    omega

/-! ### Runs without an end -/

/-- A run from `s` without an end in which every step is allowed where it is made. -/
def Endless (Allowed : σ → ι → Prop) (s : σ) : Prop :=
  ∃ (states : Nat → σ) (threads : Nat → ι), states 0 = s ∧
    ∀ n, Allowed (states n) (threads n) ∧ states (n + 1) = (step (states n) (threads n)).1

/-- Where every allowed step makes a measure smaller, no run of allowed steps is endless. -/
theorem not_endless {β : Type*} [Preorder β] [WellFoundedLT β] {Allowed : σ → ι → Prop}
    (measure : σ → β) (hstep : ∀ s i, Allowed s i → measure (step s i).1 < measure s) (s : σ) :
    ¬ Endless step Allowed s := by
  intro hendless
  obtain ⟨states, threads, -, hsteps⟩ := hendless
  apply not_strictAnti_of_wellFoundedLT fun n => measure (states n)
  apply strictAnti_nat_of_succ_lt
  intro n
  obtain ⟨hallowed, hnext⟩ := hsteps n
  rw [hnext]
  exact hstep _ _ hallowed

/-! ### Simulation -/

section Simulation

variable {τ κ : Type*} {step} {step' : τ → κ → τ × List ε} {R : σ → τ → Prop} {Answers : ι → κ → Prop}

/-- Where every step from related states is answered by steps that report the same and lead to related
states again, so is every schedule. -/
theorem run_simulation
    (hstep : ∀ s t i, R s t → ∃ ks, (∀ k ∈ ks, Answers i k) ∧ R (step s i).1 (run step' t ks).1 ∧
      (run step' t ks).2 = (step s i).2)
    {s : σ} {t : τ} (h : R s t) (is : List ι) :
    ∃ ks, (∀ k ∈ ks, ∃ i ∈ is, Answers i k) ∧ R (run step s is).1 (run step' t ks).1 ∧
      (run step' t ks).2 = (run step s is).2 := by
  induction is generalizing s t with
  | nil => exact ⟨[], by simp, h, rfl⟩
  | cons i is ih =>
    obtain ⟨ks, hks, hrelated, hsame⟩ := hstep s t i h
    obtain ⟨later, hlater, hrelated', hsame'⟩ := ih hrelated
    refine ⟨ks ++ later, ?_, ?_, ?_⟩
    · intro k hk
      rcases List.mem_append.mp hk with hk | hk
      · exact ⟨i, List.mem_cons_self .., hks k hk⟩
      · obtain ⟨j, hj, hanswer⟩ := hlater k hk
        exact ⟨j, List.mem_cons_of_mem _ hj, hanswer⟩
    · rw [run_append]
      exact hrelated'
    · rw [run_append, hsame, hsame']
      rfl

end Simulation

end Interleaving
