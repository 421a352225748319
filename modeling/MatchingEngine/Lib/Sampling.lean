/-!
# Computations that draw

A computation that draws from a source of random values may fail, and what it yields depends on the
draws. `Yields m P` says of every state of the source that `m` does not fail and that what it yields
satisfies `P`, so nothing is assumed of the draws. `Ensures m P` leaves open whether `m` fails. The rules
follow the structure of a computation.
-/

/-- Computations over a source of draws in state `σ`. -/
abbrev Sampling (σ α : Type) := StateT σ Option α

namespace Sampling

variable {σ α β : Type}

def Yields (m : Sampling σ α) (P : α → Prop) : Prop :=
  ∀ source, ∃ a source', m source = some (a, source') ∧ P a

theorem yields_draw {f : σ → α × σ} {P : α → Prop} (h : ∀ source, P (f source).1) :
    Yields (fun source => some (f source) : Sampling σ α) P :=
  fun source => ⟨(f source).1, (f source).2, rfl, h source⟩

theorem yields_pure {a : α} {P : α → Prop} (h : P a) : Yields (pure a : Sampling σ α) P :=
  fun source => ⟨a, source, rfl, h⟩

theorem yields_lift {a : α} {r : Option α} {P : α → Prop} (hr : r = some a) (h : P a) :
    Yields (StateT.lift r : Sampling σ α) P := by
  subst hr
  exact fun source => ⟨a, source, rfl, h⟩

theorem Yields.bind {m : Sampling σ α} {f : α → Sampling σ β} {P : α → Prop} {Q : β → Prop}
    (hm : Yields m P) (hf : ∀ a, P a → Yields (f a) Q) : Yields (m >>= f) Q := by
  intro source
  obtain ⟨a, source', hrun, ha⟩ := hm source
  obtain ⟨b, source'', hrun', hb⟩ := hf a ha source'
  refine ⟨b, source'', ?_, hb⟩
  change (m source).bind (fun s => f s.1 s.2) = _
  rw [hrun]
  exact hrun'

theorem Yields.mono {m : Sampling σ α} {P Q : α → Prop} (h : Yields m P) (hPQ : ∀ a, P a → Q a) :
    Yields m Q := by
  intro source
  obtain ⟨a, source', hrun, ha⟩ := h source
  exact ⟨a, source', hrun, hPQ a ha⟩

theorem yields_ite {c : Prop} [Decidable c] {m m' : Sampling σ α} {P : α → Prop}
    (htrue : c → Yields m P) (hfalse : ¬ c → Yields m' P) : Yields (if c then m else m') P := by
  split
  case isTrue h => exact htrue h
  case isFalse h => exact hfalse h

/-! ### Computations that may fail -/

def Ensures (m : Sampling σ α) (P : α → Prop) : Prop :=
  ∀ source a source', m source = some (a, source') → P a

theorem Yields.ensures {m : Sampling σ α} {P : α → Prop} (h : Yields m P) : Ensures m P := by
  intro source a source' hrun
  obtain ⟨b, source'', hrun', hb⟩ := h source
  rw [hrun, Option.some.injEq, Prod.mk.injEq] at hrun'
  rw [hrun'.1]
  exact hb

theorem ensures_lift {r : Option α} {P : α → Prop} (h : ∀ a, r = some a → P a) :
    Ensures (StateT.lift r : Sampling σ α) P := by
  intro source a source' hrun
  cases r with
  | none => cases hrun
  | some b =>
    obtain rfl : b = a := congrArg Prod.fst (Option.some.inj hrun)
    exact h b rfl

theorem Ensures.bind {m : Sampling σ α} {f : α → Sampling σ β} {P : α → Prop} {Q : β → Prop}
    (hm : Ensures m P) (hf : ∀ a, P a → Ensures (f a) Q) : Ensures (m >>= f) Q := by
  intro source b source'' hrun
  change (m source).bind (fun s => f s.1 s.2) = _ at hrun
  obtain ⟨s, hfirst, hrest⟩ := Option.bind_eq_some_iff.mp hrun
  exact hf s.1 (hm source s.1 s.2 hfirst) s.2 b source'' hrest

theorem Ensures.mono {m : Sampling σ α} {P Q : α → Prop} (h : Ensures m P) (hPQ : ∀ a, P a → Q a) :
    Ensures m Q :=
  fun source a source' hrun => hPQ a (h source a source' hrun)

theorem ensures_ite {c : Prop} [Decidable c] {m m' : Sampling σ α} {P : α → Prop}
    (htrue : c → Ensures m P) (hfalse : ¬ c → Ensures m' P) : Ensures (if c then m else m') P := by
  split
  case isTrue h => exact htrue h
  case isFalse h => exact hfalse h

end Sampling
