import Mathlib.Data.Nat.ModEq
import MatchingEngine.Model.SpscQueue

/-!
# The queue is a bounded FIFO

The values pushed so far and the values popped so far are two lists that the queue itself does not
keep. Their lengths count for ever; the indices are these lengths reduced by the mask, and a slot
holds the value whose number is congruent to it. At most one value less than there are slots is
between the two counts, so reduced indices are equal only if the counts are, and the slot that the
producer writes is never among those that hold a value.
-/

namespace MatchingEngine

variable {α : Type*}

theorem Capacity.and_mask (capacity : Capacity) (n : Nat) :
    n &&& capacity.mask = n % capacity.value := by
  have hne : capacity.value ≠ 0 := by
    have := capacity.two_le
    omega
  obtain ⟨k, hk⟩ := (Nat.and_sub_one_eq_zero_iff_isPowerOfTwo hne).mp capacity.power_of_two
  rw [mask, hk, Nat.and_two_pow_sub_one_eq_mod]

/-- Counts less than a round apart are told apart by their remainders. -/
theorem eq_of_mod_eq {a b n : Nat} (hle : a ≤ b) (hlt : b < a + n) (h : a % n = b % n) : a = b := by
  have hdvd : n ∣ b - a := (Nat.modEq_iff_dvd' hle).mp h
  have hzero : b - a = 0 := Nat.eq_zero_of_dvd_of_lt hdvd (by omega)
  omega

namespace QueueEvent

def pushed? : QueueEvent α → Option α
  | .pushed value => some value
  | _ => none

def popped? : QueueEvent α → Option α
  | .popped value => some value
  | _ => none

end QueueEvent

/-- The values of the successful pushes. -/
def pushes (events : List (QueueEvent α)) : List α := events.filterMap QueueEvent.pushed?

def pops (events : List (QueueEvent α)) : List α := events.filterMap QueueEvent.popped?

namespace SpscQueue

variable {capacity : Capacity} {q : SpscQueue α} {ins outs : List α}

/-- The slot that the producer's next step writes. -/
def writing (q : SpscQueue α) : Option Nat :=
  match q.push with
  | .admitted _ head _ => some head
  | _ => none

/-- The slot that the consumer has been admitted to and has not released. -/
def reading (q : SpscQueue α) : Option Nat :=
  match q.pop with
  | .admitted tail => some tail
  | .read tail _ => some tail
  | _ => none

/-- What a `try_push` under way relies on. -/
def PushSound (capacity : Capacity) (q : SpscQueue α) (ins outs : List α) : Prop :=
  match q.push with
  | .idle => True
  | .loadedHead _ head => head = q.head
  | .admitted _ head next =>
    head = q.head ∧ next = (ins.length + 1) % capacity.value ∧
      ins.length + 1 < outs.length + capacity.value
  | .written value next =>
    next = (ins.length + 1) % capacity.value ∧ ins.length + 1 < outs.length + capacity.value ∧
      q.slots q.head = value

def PopSound (q : SpscQueue α) (ins outs : List α) : Prop :=
  match q.pop with
  | .idle => True
  | .loadedTail tail => tail = q.tail
  | .admitted tail => tail = q.tail ∧ outs.length < ins.length
  | .read tail out => tail = q.tail ∧ outs.length < ins.length ∧ out = q.slots q.tail

/-- The queue between the values pushed and the values popped. -/
structure Sound (capacity : Capacity) (q : SpscQueue α) (ins outs : List α) : Prop where
  fifo : outs <+: ins
  room : ins.length < outs.length + capacity.value
  head_eq : q.head = ins.length % capacity.value
  tail_eq : q.tail = outs.length % capacity.value
  slots_eq : ∀ i, outs.length ≤ i → i < ins.length → ins[i]? = some (q.slots (i % capacity.value))
  push : PushSound capacity q ins outs
  pop : PopSound q ins outs

theorem sound_initial (capacity : Capacity) (blank : α) : Sound capacity (initial blank) [] [] where
  fifo := List.nil_prefix
  room := by
    have := capacity.two_le
    simp only [List.length_nil]
    omega
  head_eq := (Nat.zero_mod _).symm
  tail_eq := (Nat.zero_mod _).symm
  slots_eq i _ hi := absurd hi (Nat.not_lt_zero i)
  push := trivial
  pop := trivial

namespace Sound

theorem length_le (h : Sound capacity q ins outs) : outs.length ≤ ins.length := h.fifo.length_le

/-- The producer's own slot holds no value that is queued. -/
theorem head_ne (h : Sound capacity q ins outs) {i : Nat} (hle : outs.length ≤ i)
    (hlt : i < ins.length) : i % capacity.value ≠ q.head := by
  intro heq
  rw [h.head_eq] at heq
  have hroom := h.room
  have hsame := eq_of_mod_eq hlt.le (by omega) heq
  omega

theorem tail_ne_head (h : Sound capacity q ins outs) (hlt : outs.length < ins.length) :
    q.tail ≠ q.head := by
  rw [h.tail_eq]
  exact h.head_ne (le_refl _) hlt

/-- What the producer sees when it compares the indices. -/
theorem next_eq_tail_iff (h : Sound capacity q ins outs) :
    (q.head + 1) &&& capacity.mask = q.tail ↔ ins.length + 1 = outs.length + capacity.value := by
  have hle := h.length_le
  have hroom := h.room
  rw [capacity.and_mask, h.head_eq, h.tail_eq, Nat.mod_add_mod]
  constructor
  · intro heq
    rw [← Nat.add_mod_right outs.length] at heq
    exact eq_of_mod_eq (by omega) (by omega) heq
  · intro heq
    rw [heq, Nat.add_mod_right]

theorem tail_eq_head_iff (h : Sound capacity q ins outs) : q.tail = q.head ↔ outs.length = ins.length := by
  have hle := h.length_le
  have hroom := h.room
  rw [h.head_eq, h.tail_eq]
  constructor
  · exact eq_of_mod_eq hle hroom
  · intro heq
    rw [heq]

theorem with_push (h : Sound capacity q ins outs) {call : PushCall α}
    (hcall : PushSound capacity { q with push := call } ins outs) :
    Sound capacity { q with push := call } ins outs :=
  ⟨h.fifo, h.room, h.head_eq, h.tail_eq, h.slots_eq, hcall, h.pop⟩

theorem with_pop (h : Sound capacity q ins outs) {call : PopCall α}
    (hcall : PopSound { q with pop := call } ins outs) :
    Sound capacity { q with pop := call } ins outs :=
  ⟨h.fifo, h.room, h.head_eq, h.tail_eq, h.slots_eq, h.push, hcall⟩

/-- The slot is written in front of the consumer's back. -/
theorem write (h : Sound capacity q ins outs) {value : α} {next : Nat}
    (hnext : next = (ins.length + 1) % capacity.value)
    (hspace : ins.length + 1 < outs.length + capacity.value) :
    Sound capacity { q with slots := Function.update q.slots q.head value, push := .written value next }
      ins outs := by
  refine ⟨h.fifo, h.room, h.head_eq, h.tail_eq, ?_, ⟨hnext, hspace, Function.update_self ..⟩, ?_⟩
  · intro i hle hlt
    show ins[i]? = some (Function.update q.slots q.head value (i % capacity.value))
    rw [Function.update_of_ne (h.head_ne hle hlt)]
    exact h.slots_eq i hle hlt
  · have hpop := h.pop
    rw [PopSound] at hpop ⊢
    cases hcall : q.pop with
    | idle => trivial
    | loadedTail tail => simpa only [hcall] using hpop
    | admitted tail => simpa only [hcall] using hpop
    | read tail out =>
      simp only [hcall] at hpop ⊢
      rw [Function.update_of_ne (h.tail_ne_head hpop.2.1)]
      exact hpop

/-- With the store of its index the producer hands its slot over. -/
theorem publish (h : Sound capacity q ins outs) {value : α} {next : Nat}
    (hnext : next = (ins.length + 1) % capacity.value)
    (hspace : ins.length + 1 < outs.length + capacity.value) (hslot : q.slots q.head = value) :
    Sound capacity { q with head := next, push := .idle } (ins ++ [value]) outs := by
  have hlength : (ins ++ [value]).length = ins.length + 1 := List.length_append
  refine ⟨h.fifo.trans (List.prefix_append ..), ?_, ?_, h.tail_eq, ?_, trivial, ?_⟩
  · rw [hlength]
    exact hspace
  · rw [hlength]
    exact hnext
  · intro i hle hlt
    rw [hlength] at hlt
    by_cases hold : i < ins.length
    · rw [List.getElem?_append_left hold]
      exact h.slots_eq i hle hold
    · obtain rfl : i = ins.length := by omega
      rw [List.getElem?_concat_length, ← h.head_eq, hslot]
  · have hpop := h.pop
    rw [PopSound] at hpop ⊢
    cases hcall : q.pop with
    | idle => trivial
    | loadedTail tail => simpa only [hcall] using hpop
    | admitted tail =>
      simp only [hcall, hlength] at hpop ⊢
      exact ⟨hpop.1, by omega⟩
    | read tail out =>
      simp only [hcall, hlength] at hpop ⊢
      exact ⟨hpop.1, by omega, hpop.2.2⟩

/-- With the store of its index the consumer gives its slot back. -/
theorem release (h : Sound capacity q ins outs) {out : α} (hlt : outs.length < ins.length)
    (hout : out = q.slots q.tail) :
    Sound capacity { q with tail := (q.tail + 1) &&& capacity.mask, pop := .idle } ins
      (outs ++ [out]) := by
  have hlength : (outs ++ [out]).length = outs.length + 1 := List.length_append
  have hread : ins[outs.length]? = some out := by
    rw [h.slots_eq _ (le_refl _) hlt, ← h.tail_eq, hout]
  refine ⟨?_, ?_, h.head_eq, ?_, ?_, ?_, trivial⟩
  · obtain ⟨rest, hrest⟩ := h.fifo
    rw [← hrest, List.getElem?_append_right (le_refl _), Nat.sub_self, ← List.head?_eq_getElem?] at hread
    obtain ⟨tail, rfl⟩ := List.head?_eq_some_iff.mp hread
    exact ⟨tail, by rw [← hrest, List.append_assoc, List.singleton_append]⟩
  · rw [hlength]
    have hroom := h.room
    omega
  · simp only
    rw [hlength, capacity.and_mask, h.tail_eq, Nat.mod_add_mod]
  · intro i hle hi
    rw [hlength] at hle
    exact h.slots_eq i (by omega) hi
  · have hpush := h.push
    rw [PushSound] at hpush ⊢
    cases hcall : q.push with
    | idle => trivial
    | loadedHead value head => simpa only [hcall] using hpush
    | admitted value head next =>
      simp only [hcall, hlength] at hpush ⊢
      exact ⟨hpush.1, hpush.2.1, by omega⟩
    | written value next =>
      simp only [hcall, hlength] at hpush ⊢
      exact ⟨hpush.1, by omega, hpush.2.2⟩

/-- A step that no call returns from. -/
theorem silent (h : Sound capacity q ins outs) :
    Sound capacity q (ins ++ pushes []) (outs ++ pops []) := by
  show Sound capacity q (ins ++ []) (outs ++ [])
  rwa [List.append_nil, List.append_nil]

theorem pushStep (h : Sound capacity q ins outs) (value : α) :
    Sound capacity (q.pushStep capacity value).1 (ins ++ pushes (q.pushStep capacity value).2)
      (outs ++ pops (q.pushStep capacity value).2) := by
  have hpush := h.push
  rw [PushSound] at hpush
  rw [SpscQueue.pushStep]
  cases hcall : q.push with
  | idle => exact silent (h.with_push rfl)
  | loadedHead value head =>
    simp only [hcall] at hpush ⊢
    subst hpush
    by_cases hfull : (q.head + 1) &&& capacity.mask = q.tail
    · rw [if_pos hfull]
      exact silent (h.with_push trivial)
    · rw [if_neg hfull]
      apply silent
      apply h.with_push
      have hspace := mt h.next_eq_tail_iff.mpr hfull
      have hroom := h.room
      refine ⟨rfl, ?_, by omega⟩
      rw [capacity.and_mask, h.head_eq, Nat.mod_add_mod]
  | admitted value head next =>
    simp only [hcall] at hpush ⊢
    obtain ⟨rfl, hnext, hspace⟩ := hpush
    exact silent (h.write hnext hspace)
  | written value next =>
    simp only [hcall] at hpush ⊢
    obtain ⟨hnext, hspace, hslot⟩ := hpush
    show Sound capacity _ (ins ++ [value]) (outs ++ [])
    rw [List.append_nil]
    exact h.publish hnext hspace hslot

theorem popStep (h : Sound capacity q ins outs) :
    Sound capacity (q.popStep capacity).1 (ins ++ pushes (q.popStep capacity).2)
      (outs ++ pops (q.popStep capacity).2) := by
  have hpop := h.pop
  rw [PopSound] at hpop
  rw [SpscQueue.popStep]
  cases hcall : q.pop with
  | idle => exact silent (h.with_pop rfl)
  | loadedTail tail =>
    simp only [hcall] at hpop ⊢
    subst hpop
    by_cases hempty : q.tail = q.head
    · rw [if_pos hempty]
      exact silent (h.with_pop trivial)
    · rw [if_neg hempty]
      apply silent
      apply h.with_pop
      have hne := mt h.tail_eq_head_iff.mpr hempty
      have hle := h.length_le
      exact ⟨rfl, by omega⟩
  | admitted tail =>
    simp only [hcall] at hpop ⊢
    obtain ⟨rfl, hlt⟩ := hpop
    exact silent (h.with_pop ⟨rfl, hlt, rfl⟩)
  | read tail out =>
    simp only [hcall] at hpop ⊢
    obtain ⟨rfl, hlt, hout⟩ := hpop
    show Sound capacity _ (ins ++ []) (outs ++ [out])
    rw [List.append_nil]
    exact h.release hlt hout

end Sound

/-- What two threads on a queue can rely on, whatever the interleaving was. -/
structure Reliable (capacity : Capacity) (q : SpscQueue α) (events : List (QueueEvent α)) : Prop where
  fifo : pops events <+: pushes events
  bounded : (pushes events).length ≤ (pops events).length + (capacity.value - 1)
  kept : ∀ i, (pops events).length + i < (pushes events).length →
    (pushes events)[(pops events).length + i]? = some (q.slots ((q.tail + i) &&& capacity.mask))
  exclusive : ∀ slot, q.writing = some slot → q.reading ≠ some slot
  in_bounds : ∀ slot, q.writing = some slot ∨ q.reading = some slot → slot < capacity.value
  push_fails : ∀ value, .pushFailed ∈ (q.step capacity (.producer value)).2 →
    (pushes events).length = (pops events).length + (capacity.value - 1)
  pop_fails : .popFailed ∈ (q.step capacity .consumer).2 → pops events = pushes events

namespace Sound

theorem writing_eq (h : Sound capacity q ins outs) {slot : Nat} (hwriting : q.writing = some slot) :
    slot = q.head := by
  have hpush := h.push
  rw [PushSound] at hpush
  rw [writing] at hwriting
  cases hcall : q.push with
  | admitted value head next =>
    simp only [hcall, Option.some.injEq] at hwriting hpush
    rw [← hwriting, hpush.1]
  | _ => simp [hcall] at hwriting

theorem reading_eq (h : Sound capacity q ins outs) {slot : Nat} (hreading : q.reading = some slot) :
    slot = q.tail ∧ outs.length < ins.length := by
  have hpop := h.pop
  rw [PopSound] at hpop
  rw [reading] at hreading
  cases hcall : q.pop with
  | admitted tail =>
    simp only [hcall, Option.some.injEq] at hreading hpop
    exact ⟨hreading ▸ hpop.1, hpop.2⟩
  | read tail out =>
    simp only [hcall, Option.some.injEq] at hreading hpop
    exact ⟨hreading ▸ hpop.1, hpop.2.1⟩
  | _ => simp [hcall] at hreading

end Sound

theorem Sound.reliable {events : List (QueueEvent α)}
    (h : Sound capacity q (pushes events) (pops events)) : Reliable capacity q events := by
  have htwo := capacity.two_le
  have hroom := h.room
  refine ⟨h.fifo, by omega, ?_, ?_, ?_, ?_, ?_⟩
  · intro i hi
    rw [h.slots_eq _ (by omega) hi, capacity.and_mask, h.tail_eq, Nat.mod_add_mod]
  · intro slot hwriting hreading
    obtain ⟨htail, hlt⟩ := h.reading_eq hreading
    exact h.tail_ne_head hlt (htail ▸ h.writing_eq hwriting)
  · intro slot hslot
    have hpos : 0 < capacity.value := by omega
    rcases hslot with hwriting | hreading
    · rw [h.writing_eq hwriting, h.head_eq]
      exact Nat.mod_lt _ hpos
    · rw [(h.reading_eq hreading).1, h.tail_eq]
      exact Nat.mod_lt _ hpos
  · intro value hfailed
    have hpush := h.push
    rw [PushSound] at hpush
    rw [step, SpscQueue.pushStep] at hfailed
    cases hcall : q.push with
    | loadedHead value head =>
      simp only [hcall] at hfailed hpush
      subst hpush
      by_cases hfull : (q.head + 1) &&& capacity.mask = q.tail
      · have hcount := h.next_eq_tail_iff.mp hfull
        omega
      · simp [hfull] at hfailed
    | _ => simp [hcall] at hfailed
  · intro hfailed
    have hpop := h.pop
    rw [PopSound] at hpop
    rw [step, SpscQueue.popStep] at hfailed
    cases hcall : q.pop with
    | loadedTail tail =>
      simp only [hcall] at hfailed hpop
      subst hpop
      by_cases hempty : q.tail = q.head
      · exact h.fifo.eq_of_length (h.tail_eq_head_iff.mp hempty)
      · simp [hempty] at hfailed
    | _ => simp [hcall] at hfailed

theorem run_sound (capacity : Capacity) (blank : α) (schedule : List (QueueThread α)) :
    Sound capacity (run capacity blank schedule).1 (pushes (run capacity blank schedule).2)
      (pops (run capacity blank schedule).2) := by
  apply Interleaving.run_invariant (P := fun q events => Sound capacity q (pushes events) (pops events))
  · exact sound_initial capacity blank
  · intro q events thread h
    rw [pushes, List.filterMap_append, pops, List.filterMap_append]
    cases thread with
    | producer value => exact h.pushStep value
    | consumer => exact h.popStep

/-- **The queue under every interleaving.** -/
theorem run_reliable (capacity : Capacity) (blank : α) (schedule : List (QueueThread α)) :
    Reliable capacity (run capacity blank schedule).1 (run capacity blank schedule).2 :=
  (run_sound capacity blank schedule).reliable

end SpscQueue

end MatchingEngine
