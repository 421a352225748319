/-!
# Computations that may fail

`Ensures m P` says that what `m` yields satisfies `P`, and leaves open whether `m` fails. The rules
follow the structure of a computation.
-/

namespace Fallible

variable {ε α β : Type}

structure Ensures (m : Except ε α) (P : α → Prop) : Prop where
  of_eq_ok : ∀ a, m = .ok a → P a

theorem ensures_ok {a : α} {P : α → Prop} (h : P a) : Ensures (.ok a : Except ε α) P := by
  refine ⟨fun b hb => ?_⟩
  rw [← Except.ok.inj hb]
  exact h

theorem ensures_error {e : ε} {P : α → Prop} : Ensures (.error e : Except ε α) P :=
  ⟨fun _ h => nomatch h⟩

theorem ensures_true (m : Except ε α) : Ensures m fun _ => True :=
  ⟨fun _ _ => trivial⟩

namespace Ensures

variable {m : Except ε α} {P Q : α → Prop}

theorem bind {f : α → Except ε β} {R : β → Prop} (hm : Ensures m P)
    (hf : ∀ a, P a → Ensures (f a) R) : Ensures (m >>= f) R := by
  refine ⟨fun b hb => ?_⟩
  cases hrun : m with
  | error e =>
    rw [hrun] at hb
    cases hb
  | ok a =>
    rw [hrun] at hb
    exact (hf a (hm.of_eq_ok a hrun)).of_eq_ok b hb

theorem map {f : α → β} {R : β → Prop} (hm : Ensures m P) (hf : ∀ a, P a → R (f a)) :
    Ensures (m.map f) R := by
  refine ⟨fun b hb => ?_⟩
  cases hrun : m with
  | error e =>
    rw [hrun] at hb
    cases hb
  | ok a =>
    rw [hrun] at hb
    rw [← Except.ok.inj hb]
    exact hf a (hm.of_eq_ok a hrun)

theorem mono (hm : Ensures m P) (hPQ : ∀ a, P a → Q a) : Ensures m Q :=
  ⟨fun a ha => hPQ a (hm.of_eq_ok a ha)⟩

end Ensures

end Fallible
