import Mathlib.Data.List.Infix

/-!
# Channels that are given up

A sender works through a stream, item by item, and may be told to stop. It then gives up the item at
hand and does not try again, so that what got through is a prefix of the stream. `Carries` is what
stays true of such a sender: all is still to come, or it has been stopped and is past its last try.
What has been received and what is still in flight are both counted as sent.
-/

namespace Channel

variable {α : Type*}

/-- Of `stream` the items `sent` got through, and `pending` is what the sender still has to send. -/
def Carries (stopped trying : Prop) (sent pending stream : List α) : Prop :=
  sent ++ pending = stream ∨ stopped ∧ ¬ trying ∧ sent <+: stream

variable {stopped stopped' trying trying' : Prop} {sent pending pending' stream : List α} {x : α}

theorem carries_start (stopped trying : Prop) (stream : List α) :
    Carries stopped trying [] stream stream :=
  Or.inl rfl

namespace Carries

theorem sent_isPrefix (h : Carries stopped trying sent pending stream) : sent <+: stream := by
  obtain rfl | ⟨-, -, hsent⟩ := h
  · exact List.prefix_append ..
  · exact hsent

/-- A sender that is at it has lost nothing. -/
theorem eq_of_trying (h : Carries stopped trying sent pending stream) (htrying : trying) :
    sent ++ pending = stream :=
  h.resolve_right fun hlost => hlost.2.1 htrying

theorem eq_of_not_stopped (h : Carries stopped trying sent pending stream) (hnot : ¬ stopped) :
    sent ++ pending = stream :=
  h.resolve_right fun hlost => hnot hlost.1

theorem mono (h : Carries stopped trying sent pending stream) (hstop : stopped → stopped')
    (htry : trying' → trying) : Carries stopped' trying' sent pending stream := by
  obtain heq | ⟨hstopped, hnot, hsent⟩ := h
  · exact Or.inl heq
  · exact Or.inr ⟨hstop hstopped, fun htrying => hnot (htry htrying), hsent⟩

/-- The sender makes its next try once it has seen that it is not stopped. -/
theorem try_next (h : Carries stopped trying sent pending stream) (hnot : ¬ stopped) :
    Carries stopped trying' sent pending stream :=
  Or.inl (h.eq_of_not_stopped hnot)

theorem send (h : Carries stopped trying sent (x :: pending) stream) (htrying : trying) :
    Carries stopped trying' (sent ++ [x]) pending stream := by
  left
  rw [List.append_assoc, List.singleton_append]
  exact h.eq_of_trying htrying

theorem give_up (h : Carries stopped trying sent pending stream) (hstopped : stopped)
    (hnot : ¬ trying') : Carries stopped trying' sent pending' stream :=
  Or.inr ⟨hstopped, hnot, h.sent_isPrefix⟩

/-- The stream goes on. -/
theorem extend (h : Carries stopped trying sent pending stream) (hnot : ¬ trying')
    (more : List α) : Carries stopped trying' sent (pending ++ more) (stream ++ more) := by
  obtain rfl | ⟨hstopped, -, hsent⟩ := h
  · left
    rw [List.append_assoc]
  · exact Or.inr ⟨hstopped, hnot, hsent.trans (List.prefix_append ..)⟩

end Carries

/-- What has the last item of a stream, and has it from nowhere else, has the whole of it. -/
theorem eq_nil_of_mem_of_append_eq_concat {xs ys zs : List α} {a : α} (h : xs ++ ys = zs ++ [a])
    (hmem : a ∈ xs) (hnot : a ∉ zs) : ys = [] := by
  rcases List.prefix_concat_iff.mp ⟨ys, h⟩ with hall | hsome
  · rwa [← hall, List.append_right_eq_self] at h
  · exact absurd (hsome.subset hmem) hnot

end Channel
