import Mathlib.Data.List.Induction
import MatchingEngine.Book.Refinement

/-!
# Runs

One input is one step of matching by price-time priority, with the fill-or-kill decision that the
code takes from its cached totals. A run is input after input, so whatever holds of the empty book
and is kept by every step holds after every run.
-/

namespace MatchingEngine

open Divisible PriorityBook

variable {T : SignedInt} {c c' : Clob} {levels : Side → List (List Slot)}

/-- The decision the code takes on an incoming fill-or-kill order. -/
def Clob.probe (T : SignedInt) (c : Clob) : InputEvent → Bool
  | .addOrder event => c.fillableAtLimit T event.side event
  | _ => true

namespace Represents

theorem addOrder (h : Represents T c levels) {event : AddOrderEvent} (hid : 0 < event.orderId)
    (hqty : 0 < event.quantity) (hprice : 0 < event.price) (hfits : T.Fits event.quantity) :
    ∃ c' levels', c.addOrder T event.side event = .ok (c',
        ((bookOf levels).addOrder (c.fillableAtLimit T event.side event) event).2) ∧
      Becomes T c levels ((bookOf levels).addOrder (c.fillableAtLimit T event.side event) event).1
        c' levels' := by
  by_cases hkill : event.tif = .fok ∧ c.fillableAtLimit T event.side event = false
  · refine ⟨c, levels, ?_, ?_⟩
    · simp [Clob.addOrder, PriorityBook.addOrder, hkill]
      rfl
    · rw [PriorityBook.addOrder, if_pos hkill]
      exact h.becomes_self
  obtain ⟨opposite, s, levels', hmatch, hswept⟩ := h.matchAgainst hqty.le hfits
  have hnonneg := (h.valid.positive_makers event.side event.price).total_nonneg
  have hincoming := hswept.incoming_eq
  simp only [Clob.addOrder, PriorityBook.addOrder, if_neg hkill, hmatch, ok_bind, hswept.filled_eq,
    hswept.emitted_eq, hincoming]
  have hbook := hswept.becomes.book_eq
  rw [← hbook]
  obtain ⟨residue, hresidue⟩ : ∃ residue, residue = event.quantity -
    min event.quantity (total ((bookOf levels).makers event.side event.price)) := ⟨_, rfl⟩
  rw [← hresidue]
  by_cases hzero : residue = 0
  · rw [if_pos hzero, if_pos hzero]
    exact ⟨_, levels', rfl, hbook ▸ hswept.becomes⟩
  rw [if_neg hzero, if_neg hzero]
  by_cases hgtc : event.tif = .gtc
  · rw [if_pos hgtc, if_pos hgtc]
    by_cases hmem : event.orderId ∈ (bookOf levels').orders.map RestingOrder.orderId
    · obtain ⟨c', hrest, -, hc'⟩ := hswept.becomes.represents.restOrder_duplicate event.side
        { event with quantity := residue } hmem
      rw [if_pos hmem, hrest, ok_bind]
      exact ⟨c', levels', rfl, hswept.becomes.trans hc'⟩
    · have hvalid : ((bookOf levels').rest ⟨event.orderId, event.side, event.price, residue⟩).Valid := by
        rw [hbook] at hmem ⊢
        apply (h.valid.sweep event.side event.price event.quantity).rest hid _ hprice hmem
        · exact not_crosses_of_sweep h.valid (by omega)
        · simp only
          omega
      obtain ⟨c', levels'', hrest, hc'⟩ := hswept.becomes.represents.restOrder_fresh
        { event with quantity := residue } (hfits.of_le (by simp only; omega) (by simp only; omega))
        hmem hvalid
      rw [if_neg hmem, hrest, ok_bind]
      exact ⟨c', levels'', rfl, hswept.becomes.trans hc'⟩
  · rw [if_neg hgtc, if_neg hgtc]
    exact ⟨_, levels', rfl, hbook ▸ hswept.becomes⟩

/-- **One input.** -/
theorem onInput (h : Represents T c levels) {event : InputEvent} (hfits : event.Fits T) :
    ∃ c' levels', c.onInput T event = .ok (c', ((bookOf levels).onInput (c.probe T event) event).2) ∧
      Becomes T c levels ((bookOf levels).onInput (c.probe T event) event).1 c' levels' := by
  cases event with
  | shutdown => exact ⟨c, levels, rfl, h.becomes_self⟩
  | addOrder event =>
    simp only [Clob.onInput, Clob.onAddOrder, PriorityBook.onInput, PriorityBook.onAddOrder]
    by_cases hid : event.orderId ≤ 0
    · rw [if_pos hid, if_pos hid]
      exact ⟨c, levels, rfl, h.becomes_self⟩
    rw [if_neg hid, if_neg hid]
    by_cases hqty : event.quantity ≤ 0
    · rw [if_pos hqty, if_pos hqty]
      exact ⟨c, levels, rfl, h.becomes_self⟩
    rw [if_neg hqty, if_neg hqty]
    by_cases hprice : event.price ≤ 0
    · rw [if_pos hprice, if_pos hprice]
      exact ⟨c, levels, rfl, h.becomes_self⟩
    rw [if_neg hprice, if_neg hprice]
    exact h.addOrder (by omega) (by omega) (by omega) hfits.2.1
  | cancelOrder event =>
    simp only [Clob.onInput, Clob.onCancelOrder, PriorityBook.onInput, PriorityBook.onCancelOrder]
    by_cases hid : event.orderId ≤ 0
    · rw [if_pos hid, if_pos hid]
      exact ⟨c, levels, rfl, h.becomes_self⟩
    rw [if_neg hid, if_neg hid]
    cases hlookup : c.lookup event.orderId with
    | none =>
      rw [h.find?_eq_none hlookup]
      exact ⟨c, levels, rfl, h.becomes_self⟩
    | some p =>
      obtain ⟨side, slot, hside, rfl, heq, hfind⟩ := h.slot_of_lookup hlookup
      obtain ⟨node, hread, hactive, horder⟩ := (h.holds hside).exists_node
      have hnodeSide : node.side = side := by
        rw [show node.side = slot.2.side from congrArg RestingOrder.side horder]
        exact h.valid.side_eq side _ (List.mem_map_of_mem hside)
      have hqty : node.quantity = slot.2.quantity := congrArg RestingOrder.quantity horder
      obtain ⟨c', levels', hcancel, hc'⟩ := h.cancelResting hside
      rw [heq] at hcancel hc'
      rw [hfind]
      simp only [deref_eq hread, ok_bind, hactive, hnodeSide, hqty, reduceCtorEq, if_false, hcancel]
      exact ⟨c', levels', rfl, hc'⟩

end Represents

/-! ### Runs -/

/-- However a run goes on, no node comes back that was linked once and is no more. -/
theorem Represents.run (h : Represents T c levels) (events : List InputEvent)
    (hfits : ∀ event ∈ events, event.Fits T) :
    ∃ c' emitted levels', c.run T events = .ok (c', emitted) ∧
      Represents.Becomes T c levels (bookOf levels') c' levels' := by
  induction events generalizing c levels with
  | nil => exact ⟨c, [], levels, rfl, h.becomes_self⟩
  | cons event events ih =>
    obtain ⟨c₁, levels₁, hinput, hbecomes⟩ := h.onInput (hfits event (List.mem_cons_self ..))
    obtain ⟨c₂, later, levels₂, hrun, hlater⟩ :=
      ih hbecomes.represents fun e he => hfits e (List.mem_cons_of_mem _ he)
    refine ⟨c₂, ((bookOf levels).onInput (c.probe T event) event).2 ++ later, levels₂, ?_,
      hbecomes.trans hlater⟩
    simp only [Clob.run, hinput, ok_bind, hrun]
    rfl

theorem Clob.run_append (T : SignedInt) (c : Clob) (before after : List InputEvent) :
    c.run T (before ++ after) = (do
      let (c, emitted) ← c.run T before
      let (c, later) ← c.run T after
      return (c, emitted ++ later)) := by
  induction before generalizing c with
  | nil =>
    simp only [List.nil_append, Clob.run, pure_bind, List.nil_append]
    exact (bind_pure _).symm
  | cons event before ih =>
    simp only [List.cons_append, Clob.run, ih, bind_assoc, pure_bind, List.append_assoc]

/-- A run goes on from where it stands. -/
theorem Clob.run_concat {c₀ c c' : Clob} {before : List InputEvent} {event : InputEvent}
    {emitted later : List OutputEvent} (hrun : Clob.run T c₀ before = .ok (c, emitted))
    (hstep : c.onInput T event = .ok (c', later)) :
    Clob.run T c₀ (before ++ [event]) = .ok (c', emitted ++ later) := by
  simp only [Clob.run_append, hrun, Clob.run, ok_bind, hstep, pure_bind, List.append_nil]
  rfl

theorem Clob.run_singleton {event : InputEvent} {emitted : List OutputEvent}
    (hstep : c.onInput T event = .ok (c', emitted)) : c.run T [event] = .ok (c', emitted) := by
  simp only [Clob.run, hstep, ok_bind, pure_bind, List.append_nil]
  rfl

/-- What the last input emits can be read off the runs with it and without it. -/
theorem Clob.emitted_of_runs {c₀ c c' : Clob} {before : List InputEvent} {event : InputEvent}
    {emitted later first last : List OutputEvent} (hrun : Clob.run T c₀ before = .ok (c, emitted))
    (hstep : c.onInput T event = .ok (c', later))
    (hfirst : (Clob.run T c₀ before).map Prod.snd = .ok first)
    (hall : (Clob.run T c₀ (before ++ [event])).map Prod.snd = .ok (first ++ last)) :
    later = last := by
  rw [hrun, map_ok, Except.ok.injEq] at hfirst
  rw [Clob.run_concat hrun hstep, map_ok, Except.ok.injEq, ← hfirst] at hall
  exact List.append_cancel_left hall

/-- What the empty book has and every input keeps is had after every run, and no run faults. -/
theorem run_induction {P : List InputEvent → List OutputEvent → Clob → (Side → List (List Slot)) → Prop}
    (hinit : P [] [] {} fun _ => [])
    (hstep : ∀ {events emitted c levels event c' levels'}, Represents T c levels →
      P events emitted c levels → event.Fits T →
      Represents.Becomes T c levels ((bookOf levels).onInput (c.probe T event) event).1 c' levels' →
      P (events ++ [event])
        (emitted ++ ((bookOf levels).onInput (c.probe T event) event).2) c' levels')
    (events : List InputEvent) (hfits : ∀ event ∈ events, event.Fits T) :
    ∃ c emitted levels, Clob.run T {} events = .ok (c, emitted) ∧ Represents T c levels ∧
      P events emitted c levels := by
  induction events using List.reverseRecOn with
  | nil => exact ⟨{}, [], fun _ => [], rfl, represents_empty T, hinit⟩
  | append_singleton events event ih =>
    obtain ⟨c, emitted, levels, hrun, hc, hP⟩ :=
      ih fun e he => hfits e (List.mem_append_left _ he)
    have hevent : event.Fits T := hfits event (List.mem_append_right _ (List.mem_singleton_self _))
    obtain ⟨c', levels', hinput, hc'⟩ := hc.onInput hevent
    exact ⟨c', _, levels', Clob.run_concat hrun hinput, hc'.represents, hstep hc hP hevent hc'⟩

/-- **Every run.** -/
theorem run_represents (events : List InputEvent) (hfits : ∀ event ∈ events, event.Fits T) :
    ∃ c emitted levels, Clob.run T {} events = .ok (c, emitted) ∧ Represents T c levels := by
  obtain ⟨c, emitted, levels, hrun, hbecomes⟩ := (represents_empty T).run events hfits
  exact ⟨c, emitted, levels, hrun, hbecomes.represents⟩

end MatchingEngine
