import Mathlib.Data.Prod.Lex
import MatchingEngine.Lib.Fairness
import MatchingEngine.Model.AgentSystem

/-!
# Starting and joining agents

An agent system does what its loops do by themselves, later at most: it moves only agents that have a
thread. Its main thread does not return before every agent has, and under a schedule that is fair to it
and to the agents it does return if the agents do.
-/

namespace MatchingEngine

namespace Lifecycle

/-- The steps that the main thread has still to make. -/
def stepsLeft {ι : Type*} (agents : List ι) : Lifecycle ι → Nat
  | .starting rest => rest.length + (agents.length + 2)
  | .joining rest => rest.length + 1
  | .returned => 0

/-- The next step of the main thread is not to wait. -/
def Free {ι : Type*} (returned : ι → Bool) : Lifecycle ι → Prop
  | .starting _ => True
  | .joining [] => True
  | .joining (agent :: _) => returned agent = true
  | .returned => False

theorem Free.mono {ι : Type*} {returned returned' : ι → Bool} {main : Lifecycle ι}
    (h : main.Free returned) (hreturned : ∀ i, returned i = true → returned' i = true) :
    main.Free returned' := by
  cases main with
  | starting => trivial
  | joining rest =>
    cases rest with
    | nil => trivial
    | cons agent => exact hreturned agent h
  | returned => exact h

end Lifecycle

namespace AgentSystem

variable {σ ι ε : Type*} {agents : List ι} {returned : σ → ι → Bool}
  {loopStep : σ → ι → σ × List ε} {s : AgentSystem σ ι}

theorem mainStep_loops (agents : List ι) (returned : σ → ι → Bool) (s : AgentSystem σ ι) :
    (s.mainStep agents returned).loops = s.loops := by
  rw [mainStep]
  split
  · rfl
  · rfl
  · split <;> rfl
  · rfl
  · rfl

variable [DecidableEq ι]

theorem step_loop_of_started {i : ι} (h : i ∉ s.main.unstarted) :
    s.step agents returned loopStep (.loop i)
      = ({ s with loops := (loopStep s.loops i).1 }, (loopStep s.loops i).2) := by
  rw [step, if_neg h]

theorem step_loop_of_unstarted {i : ι} (h : i ∈ s.main.unstarted) :
    s.step agents returned loopStep (.loop i) = (s, []) := by
  rw [step, if_pos h]

/-! ### The loops by themselves -/

/-- **A run of the system is one of its loops**, in which the same of them move. -/
theorem run_loops (agents : List ι) (returned : σ → ι → Bool) (loopStep : σ → ι → σ × List ε)
    (s : AgentSystem σ ι) (schedule : List (Mover ι)) :
    ∃ schedule', (∀ i ∈ schedule', .loop i ∈ schedule) ∧
      Interleaving.run loopStep s.loops schedule'
        = ((Interleaving.run (step agents returned loopStep) s schedule).1.loops,
          (Interleaving.run (step agents returned loopStep) s schedule).2) := by
  have hstep : ∀ (s : AgentSystem σ ι) (loops : σ) mover, s.loops = loops →
      ∃ movers, (∀ i ∈ movers, mover = .loop i) ∧
        (step agents returned loopStep s mover).1.loops = (Interleaving.run loopStep loops movers).1 ∧
        (Interleaving.run loopStep loops movers).2 = (step agents returned loopStep s mover).2 := by
    rintro s loops mover rfl
    cases mover with
    | main => exact ⟨[], by simp, mainStep_loops agents returned s, rfl⟩
    | loop i =>
      by_cases h : i ∈ s.main.unstarted
      · rw [step_loop_of_unstarted h]
        exact ⟨[], by simp, rfl, rfl⟩
      · rw [step_loop_of_started h]
        refine ⟨[i], by simp, ?_⟩
        rw [Interleaving.run_singleton]
        exact ⟨rfl, rfl⟩
  obtain ⟨schedule', hmovers, hloops, hsame⟩ :=
    Interleaving.run_simulation hstep rfl schedule
  refine ⟨schedule', ?_, by rw [hloops, ← hsame]⟩
  intro i hi
  obtain ⟨mover, hmover, rfl⟩ := hmovers i hi
  exact hmover

/-! ### Who has returned -/

/-- The agents that have been joined have returned, and the others are still to be joined. -/
def Joined (agents : List ι) (returned : σ → ι → Bool) (s : AgentSystem σ ι) : Prop :=
  match s.main with
  | .starting _ => True
  | .joining rest => ∀ agent ∈ agents, agent ∈ rest ∨ returned s.loops agent = true
  | .returned => ∀ agent ∈ agents, returned s.loops agent = true

variable (hreturned : ∀ loops i j, returned loops i = true → returned (loopStep loops j).1 i = true)

include hreturned in
theorem Joined.step (h : s.Joined agents returned) (mover : Mover ι) :
    (s.step agents returned loopStep mover).1.Joined agents returned := by
  cases mover with
  | main =>
    obtain ⟨main, loops⟩ := s
    cases main with
    | starting rest =>
      cases rest with
      | nil => exact fun agent hagent => Or.inl (List.mem_reverse.mpr hagent)
      | cons => trivial
    | joining rest =>
      cases rest with
      | nil => exact fun agent hagent => (h agent hagent).resolve_left List.not_mem_nil
      | cons first rest =>
        simp only [AgentSystem.step, mainStep]
        split
        · next hfirst =>
          intro agent hagent
          rcases h agent hagent with hmem | hdone
          · rcases List.mem_cons.mp hmem with rfl | hrest
            · exact Or.inr hfirst
            · exact Or.inl hrest
          · exact Or.inr hdone
        · exact h
    | returned => exact h
  | loop i =>
    by_cases hi : i ∈ s.main.unstarted
    · rw [step_loop_of_unstarted hi]
      exact h
    · rw [step_loop_of_started hi]
      obtain ⟨main, loops⟩ := s
      cases main with
      | starting => trivial
      | joining rest =>
        exact fun agent hagent => (h agent hagent).imp id (hreturned loops agent i)
      | returned => exact fun agent hagent => hreturned loops agent i (h agent hagent)

include hreturned in
/-- **Every agent has returned before `join` has.** -/
theorem run_joined (loops : σ) (schedule : List (Mover ι))
    (hmain : (Interleaving.run (step agents returned loopStep) (initial agents loops) schedule).1.main
      = .returned) :
    ∀ agent ∈ agents, returned
      (Interleaving.run (step agents returned loopStep) (initial agents loops) schedule).1.loops agent
        = true := by
  have hjoined := Interleaving.run_invariant (step agents returned loopStep)
    (P := fun s _ => s.Joined agents returned) (s := initial agents loops) trivial
    (fun _ _ mover h => h.step hreturned mover) schedule
  rw [Joined, hmain] at hjoined
  exact hjoined

/-! ### Returning -/

omit [DecidableEq ι] in
theorem mainStep_cases (agents : List ι) (returned : σ → ι → Bool) (s : AgentSystem σ ι) :
    (s.mainStep agents returned).main.stepsLeft agents < s.main.stepsLeft agents ∨
      s.mainStep agents returned = s ∧ ¬ s.main.Free (returned s.loops) := by
  obtain ⟨main, loops⟩ := s
  cases main with
  | starting rest =>
    apply Or.inl
    cases rest with
    | nil => simp only [mainStep, Lifecycle.stepsLeft, List.length_reverse, List.length_nil]; omega
    | cons => simp only [mainStep, Lifecycle.stepsLeft, List.length_cons]; omega
  | joining rest =>
    cases rest with
    | nil => exact Or.inl Nat.one_pos
    | cons agent rest =>
      simp only [mainStep, Lifecycle.Free]
      by_cases h : returned loops agent = true
      · rw [if_pos h]
        exact Or.inl (Nat.lt_succ_self _)
      · rw [if_neg h]
        exact Or.inr ⟨rfl, h⟩
  | returned => exact Or.inr ⟨rfl, not_false⟩

/-- Only declared agents are joined. -/
def Awaits (agents : List ι) (s : AgentSystem σ ι) : Prop :=
  match s.main with
  | .joining rest => ∀ agent ∈ rest, agent ∈ agents
  | _ => True

theorem Awaits.step (h : s.Awaits agents) (mover : Mover ι) :
    (s.step agents returned loopStep mover).1.Awaits agents := by
  obtain ⟨main, loops⟩ := s
  cases mover with
  | main =>
    cases main with
    | starting rest =>
      cases rest with
      | nil => exact fun agent hagent => List.mem_reverse.mp hagent
      | cons => trivial
    | joining rest =>
      cases rest with
      | nil => trivial
      | cons first rest =>
        simp only [AgentSystem.step, mainStep]
        split
        · exact fun agent hagent => h agent (List.mem_cons_of_mem _ hagent)
        · exact h
    | returned => trivial
  | loop i =>
    rw [AgentSystem.step]
    split <;> exact h

section Helped

open Interleaving (Helped)

variable {γ β : Type*} [Preorder β] {P Q : ι → Prop} {Done : σ → Prop} {R : σ → γ → Prop} {rank : γ → β}
  {Helps : γ → ι → Prop} {pace : σ → γ → ι → ℕ}

/-- The main thread, and these movers. -/
def Mover.Among (P : ι → Prop) : Mover ι → Prop
  | .main => True
  | .loop i => P i

omit [DecidableEq ι] in
theorem Mover.among_of_forall (h : ∀ i, P i) (mover : Mover ι) : mover.Among P := by
  cases mover with
  | main => trivial
  | loop i => exact h i

/-- The main thread helps where it need not wait, and the agents once they are all started. -/
def HelpsAlong (returned : σ → ι → Bool) (Helps : γ → ι → Prop) (a : AgentSystem σ ι × γ) :
    Mover ι → Prop
  | .main => a.1.main.Free (returned a.1.loops)
  | .loop i => a.1.main.unstarted = [] ∧ Helps a.2 i

def paceAlong (pace : σ → γ → ι → ℕ) (s : AgentSystem σ ι) (a : AgentSystem σ ι × γ) : Mover ι → ℕ
  | .main => 0
  | .loop i => pace s.loops a.2 i

include hreturned in
/-- **Where the agents come to an end, so does the system.** -/
theorem helped (h : Helped loopStep P Q Done R rank Helps pace)
    (hdone : ∀ loops, Done loops → ∀ agent ∈ agents, returned loops agent = true) :
    Helped (step agents returned loopStep) (Mover.Among P) (Mover.Among Q) (fun s => s.main = .returned)
      (fun s (a : AgentSystem σ ι × γ) => s = a.1 ∧ R s.loops a.2 ∧ s.Awaits agents)
      (fun a => toLex (a.1.main.stepsLeft agents, rank a.2)) (HelpsAlong returned Helps)
      (paceAlong pace) where
  exists_helps := by
    rintro s ⟨s', a⟩ ⟨rfl, hs, hawaits⟩ hmain
    obtain ⟨main, loops⟩ := s
    cases main with
    | starting rest => exact ⟨.main, trivial, trivial⟩
    | returned => exact absurd rfl hmain
    | joining rest =>
      by_cases hloops : Done loops
      · refine ⟨.main, trivial, ?_⟩
        cases rest with
        | nil => trivial
        | cons agent => exact hdone loops hloops agent (hawaits agent (List.mem_cons_self ..))
      · obtain ⟨i, hi, hhelps⟩ := h.exists_helps hs hloops
        exact ⟨.loop i, hi, rfl, hhelps⟩
  step := by
    rintro s ⟨s', a⟩ ⟨rfl, hs, hawaits⟩ mover hmove
    have hawaits' : (AgentSystem.step agents returned loopStep s mover).1.Awaits agents :=
      hawaits.step mover
    cases mover with
    | main =>
      refine ⟨(s.mainStep agents returned, a), ⟨rfl, ?_, hawaits'⟩, ?_⟩
      · rw [step, mainStep_loops]
        exact hs
      · rcases mainStep_cases agents returned s with hlt | ⟨hsame, hwaits⟩
        · have hlex : toLex ((s.mainStep agents returned).main.stepsLeft agents, rank a)
              < toLex (s.main.stepsLeft agents, rank a) := Prod.Lex.toLex_lt_toLex.mpr (Or.inl hlt)
          exact ⟨hlex.le, fun _ _ => Or.inl hlex⟩
        · rw [step, hsame]
          refine ⟨le_refl _, fun other hhelps => Or.inr ⟨hhelps, Nat.le_refl _, ?_⟩⟩
          rintro rfl
          exact absurd hhelps hwaits
    | loop i =>
      by_cases hi : i ∈ s.main.unstarted
      · rw [step_loop_of_unstarted hi]
        refine ⟨(s, a), ⟨rfl, hs, hawaits⟩, le_refl _,
          fun other hhelps => Or.inr ⟨hhelps, Nat.le_refl _, ?_⟩⟩
        rintro rfl
        rw [hhelps.1] at hi
        exact absurd hi List.not_mem_nil
      · rw [step_loop_of_started hi] at hawaits' ⊢
        obtain ⟨a', hs', hle, hnext⟩ := h.step hs i hmove
        refine ⟨(_, a'), ⟨rfl, hs', hawaits'⟩, Prod.Lex.toLex_le_toLex.mpr (Or.inr ⟨rfl, hle⟩), ?_⟩
        intro other hhelps
        cases other with
        | main =>
          exact Or.inr ⟨hhelps.mono fun j => hreturned s.loops j i, Nat.le_refl _, nofun⟩
        | loop k =>
          obtain ⟨hstarted, hhelps⟩ := hhelps
          rcases hnext k hhelps with hlt | ⟨hhelps', hpace, hown⟩
          · exact Or.inl (Prod.Lex.toLex_lt_toLex.mpr (Or.inr ⟨rfl, hlt⟩))
          · exact Or.inr ⟨⟨hstarted, hhelps'⟩, hpace, fun heq => hown (Mover.loop.inj heq)⟩

end Helped

end AgentSystem

end MatchingEngine
