import MatchingEngine.Model.Program
import MatchingEngine.Runtime.RingQueue

/-!
# What the size of a queue is good for

`size` loads one index and then the other, and the queue goes on in between. The thread that asks does not
move meanwhile, so one of the two indices is as it was loaded: what the producer is told is the number of
values there are at the second load, what the consumer is told the number there were at the first. Later
the one has at least the room, and the other at least the values, that the answer promises. A third thread
can be told anything.
-/

namespace MatchingEngine

namespace SpscQueue

open Interleaving

variable {α : Type*} {capacity : Capacity} {q : SpscQueue α} {ins outs : List α}

/-! ### One thread at rest -/

theorem popStep_head (capacity : Capacity) (q : SpscQueue α) : (q.popStep capacity).1.head = q.head := by
  rw [popStep]
  split
  · rfl
  · split <;> rfl
  · rfl
  · rfl

theorem pushStep_tail (capacity : Capacity) (q : SpscQueue α) (value : α) :
    (q.pushStep capacity value).1.tail = q.tail := by
  rw [pushStep]
  split
  · rfl
  · dsimp only
    split <;> rfl
  · rfl
  · rfl

theorem pops_pushStep (capacity : Capacity) (q : SpscQueue α) (value : α) :
    pops (q.pushStep capacity value).2 = [] := by
  rw [pushStep]
  split
  · rfl
  · dsimp only
    split <;> rfl
  · rfl
  · rfl

theorem run_head (capacity : Capacity) {schedule : List (QueueThread α)}
    (h : ∀ t ∈ schedule, t = .consumer) (q : SpscQueue α) :
    (Interleaving.run (step capacity) q schedule).1.head = q.head := by
  induction schedule generalizing q with
  | nil => rfl
  | cons t schedule ih =>
    obtain ⟨rfl, hschedule⟩ := List.forall_mem_cons.mp h
    rw [run_cons]
    exact (ih hschedule _).trans (popStep_head capacity q)

/-- While only the producer moves, nothing is popped. -/
theorem run_tail (capacity : Capacity) {schedule : List (QueueThread α)}
    (h : ∀ t ∈ schedule, t ≠ .consumer) (q : SpscQueue α) :
    (Interleaving.run (step capacity) q schedule).1.tail = q.tail ∧
      pops (Interleaving.run (step capacity) q schedule).2 = [] := by
  induction schedule generalizing q with
  | nil => exact ⟨rfl, rfl⟩
  | cons t schedule ih =>
    obtain ⟨ht, hschedule⟩ := List.forall_mem_cons.mp h
    cases t with
    | consumer => exact absurd rfl ht
    | producer value =>
      obtain ⟨htail, hpops⟩ := ih hschedule (q.pushStep capacity value).1
      rw [run_cons, pops, List.filterMap_append]
      refine ⟨htail.trans (pushStep_tail capacity q value), ?_⟩
      exact congrArg₂ (· ++ ·) (pops_pushStep capacity q value) hpops

theorem pushFailed_not_mem_popStep (capacity : Capacity) (q : SpscQueue α) :
    .pushFailed ∉ (q.popStep capacity).2 := by
  rw [popStep]
  split
  · simp
  · split <;> simp
  · simp
  · simp

theorem popFailed_not_mem_pushStep (capacity : Capacity) (q : SpscQueue α) (value : α) :
    .popFailed ∉ (q.pushStep capacity value).2 := by
  rw [pushStep]
  split
  · simp
  · dsimp only
    split <;> simp
  · simp
  · simp

/-! ### The difference of the indices -/

/-- The wrap of `std::size_t` is one of the ring's. -/
theorem size_eq_mod (hvalue : capacity.value ≤ 2 ^ 64) {atHead atTail : SpscQueue α}
    (htail : atTail.tail < capacity.value) : size capacity atHead atTail
      = (atHead.head + capacity.value - atTail.tail) % capacity.value := by
  have hne : capacity.value ≠ 0 := by omega
  obtain ⟨k, hk⟩ := (Nat.and_sub_one_eq_zero_iff_isPowerOfTwo hne).mp capacity.power_of_two
  have hdvd : capacity.value ∣ 2 ^ 64 := by
    rw [hk] at hvalue ⊢
    exact Nat.pow_dvd_pow 2 ((Nat.pow_le_pow_iff_right (by decide)).mp hvalue)
  obtain ⟨rounds, hrounds⟩ := hdvd
  have hsplit : atHead.head + 2 ^ 64 - atTail.tail
      = atHead.head + capacity.value - atTail.tail + capacity.value * (rounds - 1) := by
    have hpos : rounds ≠ 0 := by
      rintro rfl
      simp at hrounds
    obtain ⟨more, rfl⟩ := Nat.exists_eq_succ_of_ne_zero hpos
    rw [hrounds, Nat.succ_sub_one, Nat.mul_succ]
    omega
  rw [size, capacity.and_mask, Nat.mod_mod_of_dvd _ ⟨rounds, hrounds⟩, hsplit, Nat.add_mul_mod_self_left]

namespace Sound

theorem tail_lt (h : Sound capacity q ins outs) : q.tail < capacity.value := by
  rw [h.tail_eq]
  exact Nat.mod_lt _ (Nat.zero_lt_two.trans_le capacity.two_le)

/-- With both indices of one moment it is the number of values. -/
theorem size_eq (hvalue : capacity.value ≤ 2 ^ 64) (h : Sound capacity q ins outs) :
    size capacity q q = ins.length - outs.length := by
  rw [size_eq_mod hvalue h.tail_lt, h.head_eq, h.tail_eq]
  exact mod_add_sub_mod h.length_le h.room

/-! ### Calls that fail later -/

theorem reliable_of_lists (h : Sound capacity q ins outs) :
    ∃ events, pushes events = ins ∧ pops events = outs ∧ Reliable capacity q events := by
  refine ⟨ins.map .pushed ++ outs.map .popped, ?_⟩
  have hpushes : pushes (ins.map QueueEvent.pushed ++ outs.map QueueEvent.popped) = ins := by
    simp [pushes, List.filterMap_append, List.filterMap_map, Function.comp_def, QueueEvent.pushed?]
  have hpops : pops (ins.map QueueEvent.pushed ++ outs.map QueueEvent.popped) = outs := by
    simp [pops, List.filterMap_append, List.filterMap_map, Function.comp_def, QueueEvent.popped?]
  refine ⟨hpushes, hpops, Sound.reliable ?_⟩
  rwa [hpushes, hpops]

theorem push_fails (h : Sound capacity q ins outs) {value : α}
    (hfailed : .pushFailed ∈ (q.pushStep capacity value).2) :
    ins.length = outs.length + (capacity.value - 1) := by
  obtain ⟨events, rfl, rfl, hreliable⟩ := h.reliable_of_lists
  exact hreliable.push_fails value hfailed

theorem pop_fails (h : Sound capacity q ins outs) (hfailed : .popFailed ∈ (q.popStep capacity).2) :
    outs = ins := by
  obtain ⟨events, rfl, rfl, hreliable⟩ := h.reliable_of_lists
  exact hreliable.pop_fails hfailed

/-- A push fails only when the room there was has been used up by pushes, a pop only when the values there
were have been used up by pops. -/
theorem later (h : Sound capacity q ins outs) (later : List (QueueThread α)) :
    Sound capacity (Interleaving.run (step capacity) q later).1
        (ins ++ pushes (Interleaving.run (step capacity) q later).2)
        (outs ++ pops (Interleaving.run (step capacity) q later).2) ∧
      (.pushFailed ∈ (Interleaving.run (step capacity) q later).2 → outs.length + (capacity.value - 1)
        ≤ ins.length + (pushes (Interleaving.run (step capacity) q later).2).length) ∧
      (.popFailed ∈ (Interleaving.run (step capacity) q later).2 →
        ins.length ≤ outs.length + (pops (Interleaving.run (step capacity) q later).2).length) := by
  apply run_invariant (P := fun q' events =>
    Sound capacity q' (ins ++ pushes events) (outs ++ pops events) ∧
      (.pushFailed ∈ events → outs.length + (capacity.value - 1) ≤ ins.length + (pushes events).length) ∧
      (.popFailed ∈ events → ins.length ≤ outs.length + (pops events).length)) (step capacity)
  · simpa [pushes, pops] using h
  · rintro q' events thread ⟨hsound, hpush, hpop⟩
    have hpushes : ∀ more, pushes (events ++ more) = pushes events ++ pushes more := fun _ =>
      List.filterMap_append ..
    have hpops : ∀ more, pops (events ++ more) = pops events ++ pops more := fun _ =>
      List.filterMap_append ..
    rw [hpushes, hpops]
    simp only [List.mem_append, List.length_append, ← List.append_assoc]
    refine ⟨?_, fun hfailed => ?_, fun hfailed => ?_⟩
    · cases thread with
      | producer value => exact hsound.pushStep value
      | consumer => exact hsound.popStep
    · rcases hfailed with hfailed | hfailed
      · have hle := hpush hfailed
        omega
      · cases thread with
        | producer value =>
          have hfull := hsound.push_fails hfailed
          rw [List.length_append, List.length_append] at hfull
          omega
        | consumer => exact absurd hfailed (pushFailed_not_mem_popStep capacity q')
    · rcases hfailed with hfailed | hfailed
      · have hle := hpop hfailed
        omega
      · cases thread with
        | producer value => exact absurd hfailed (popFailed_not_mem_pushStep capacity q' value)
        | consumer =>
          have hempty := congrArg List.length (hsound.pop_fails hfailed)
          rw [List.length_append, List.length_append] at hempty
          omega

end Sound

theorem empty_iff_size (hvalue : capacity.value ≤ 2 ^ 64) {atHead atTail : SpscQueue α}
    {ins' outs' : List α} (h : Sound capacity atHead ins outs) (h' : Sound capacity atTail ins' outs') :
    empty atHead atTail = true ↔ size capacity atHead atTail = 0 := by
  have hhead : atHead.head < capacity.value := by
    rw [h.head_eq]
    exact Nat.mod_lt _ (Nat.zero_lt_two.trans_le capacity.two_le)
  have htail := h'.tail_lt
  rw [size_eq_mod hvalue htail, empty, decide_eq_true_iff]
  constructor
  · intro heq
    rw [heq, Nat.add_sub_cancel_left, Nat.mod_self]
  · intro hzero
    by_cases hle : atTail.tail ≤ atHead.head
    · rw [show atHead.head + capacity.value - atTail.tail
        = atHead.head - atTail.tail + capacity.value by omega, Nat.add_mod_right,
        Nat.mod_eq_of_lt (by omega)] at hzero
      omega
    · rw [Nat.mod_eq_of_lt (by omega)] at hzero
      omega

/-- How many values are in the queue. -/
def queued (events : List (QueueEvent α)) : Nat := (pushes events).length - (pops events).length

/-- **What the size is good for.** The producer learns the size at the end of its call, and as many pushes
as that leaves room for will not fail; the consumer learns the size at the beginning of its call, and as
many pops will not fail. -/
theorem run_size (hvalue : capacity.value ≤ 2 ^ 64) (blank : α) (before between : List (QueueThread α)) :
    (empty (run capacity blank before).1 (run capacity blank (before ++ between)).1 = true ↔
        size capacity (run capacity blank before).1 (run capacity blank (before ++ between)).1 = 0) ∧
      ((∀ t ∈ between, t = .consumer) →
        size capacity (run capacity blank before).1 (run capacity blank (before ++ between)).1
            = queued (run capacity blank (before ++ between)).2 ∧
          ∀ later, .pushFailed ∈ (Interleaving.run (step capacity)
              (run capacity blank (before ++ between)).1 later).2 →
            capacity.value - 1 ≤ size capacity (run capacity blank before).1
                (run capacity blank (before ++ between)).1
              + (pushes (Interleaving.run (step capacity)
                  (run capacity blank (before ++ between)).1 later).2).length) ∧
      ((∀ t ∈ between, t ≠ .consumer) →
        size capacity (run capacity blank before).1 (run capacity blank (before ++ between)).1
            = queued (run capacity blank before).2 ∧
          ∀ later, .popFailed ∈ (Interleaving.run (step capacity)
              (run capacity blank (before ++ between)).1 later).2 →
            size capacity (run capacity blank before).1 (run capacity blank (before ++ between)).1
              ≤ (pops (Interleaving.run (step capacity)
                  (run capacity blank (before ++ between)).1 later).2).length) := by
  have h₁ := run_sound capacity blank before
  have h₂ := run_sound capacity blank (before ++ between)
  have hgoes : (run capacity blank (before ++ between)).1
      = (Interleaving.run (step capacity) (run capacity blank before).1 between).1 := by
    rw [run, run_append]
    rfl
  refine ⟨empty_iff_size hvalue h₁ h₂, fun hbetween => ?_, fun hbetween => ?_⟩
  · have hhead := run_head capacity hbetween (run capacity blank before).1
    rw [← hgoes] at hhead
    have hsize := h₂.size_eq hvalue
    rw [size, hhead, ← size] at hsize
    refine ⟨hsize, fun later hfailed => ?_⟩
    have hused := (h₂.later later).2.1 hfailed
    have hle := h₂.length_le
    omega
  · obtain ⟨htail, hnone⟩ := run_tail capacity hbetween (run capacity blank before).1
    rw [← hgoes] at htail
    have hsize := h₁.size_eq hvalue
    rw [size, ← htail, ← size] at hsize
    refine ⟨hsize, fun later hfailed => ?_⟩
    have hused := (h₁.later (between ++ later)).2.2
    rw [run_append, ← hgoes] at hused
    simp only [pops, List.filterMap_append, List.mem_append] at hused hnone
    have hle := hused (Or.inr hfailed)
    rw [hnone, List.nil_append] at hle
    rw [hsize]
    exact Nat.sub_le_iff_le_add'.mpr hle

theorem run_size_pushed :
    size Program.queueCapacity
        (run Program.queueCapacity 0 [.producer 5, .producer 5, .producer 5, .producer 5]).1
        (run Program.queueCapacity 0 ([.producer 5, .producer 5, .producer 5, .producer 5] ++ [.consumer])).1
      = queued (run Program.queueCapacity 0
          ([.producer 5, .producer 5, .producer 5, .producer 5] ++ [.consumer])).2 :=
  ((run_size (by decide) 0 [.producer 5, .producer 5, .producer 5, .producer 5] [.consumer]).2.1
    (by simp)).1

/-- A thread that is neither can find a queue full that never held more than one value. -/
example : size Program.queueCapacity (run Program.queueCapacity 0 []).1
    (run Program.queueCapacity 0 [.producer 5, .producer 5, .producer 5, .producer 5, .consumer, .consumer,
      .consumer, .consumer]).1 = 2 ^ 16 - 1 := by decide

end SpscQueue

end MatchingEngine
