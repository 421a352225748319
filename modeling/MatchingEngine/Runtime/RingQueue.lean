import MatchingEngine.Model.RingPipeline
import MatchingEngine.Runtime.SpscQueue

/-!
# A ring in place of a queue

What one step of a call on a ring does to the queue that the ring holds: nothing, until the step that the
call returns with. A push takes effect when it stores the head, a pop when it stores the tail, and a call
that fails has seen that the queue is full or empty when it loads the other index.
-/

namespace MatchingEngine

namespace PushCall

variable {α : Type*}

/-- The call is one for the value that is being pushed, if any is. -/
def Serves : PushCall α → Option α → Prop
  | .idle, _ => True
  | .loadedHead value _, pushing => pushing = some value
  | .admitted value _ _, pushing => pushing = some value
  | .written value _, pushing => pushing = some value

/-- The steps that a call takes from here if it succeeds. -/
def stepsLeft : PushCall α → Nat
  | .idle => 4
  | .loadedHead _ _ => 3
  | .admitted _ _ _ => 2
  | .written _ _ => 1

theorem stepsLeft_le (call : PushCall α) : call.stepsLeft ≤ 4 := by
  cases call <;> simp [stepsLeft]

theorem eq_idle_of_serves {call : PushCall α} (h : call.Serves none) : call = .idle := by
  cases call with
  | idle => rfl
  | loadedHead => cases h
  | admitted => cases h
  | written => cases h

end PushCall

def PopCall.stepsLeft {α : Type*} : PopCall α → Nat
  | .idle => 4
  | .loadedTail _ => 3
  | .admitted _ => 2
  | .read _ _ => 1

theorem PopCall.stepsLeft_le {α : Type*} (call : PopCall α) : call.stepsLeft ≤ 4 := by
  cases call <;> simp [stepsLeft]

namespace SpscQueue

variable {α : Type*} {capacity : Capacity} {q : SpscQueue α} {queue : List α} {pushing : Option α}
  {popping : Prop} {event : α}

/-- A push leaves a pop that is under way alone. -/
theorem pushStep_pop (capacity : Capacity) (q : SpscQueue α) (event : α) :
    (q.pushStep capacity event).1.pop = q.pop := by
  rw [pushStep]
  split
  · rfl
  · dsimp only
    split <;> rfl
  · rfl
  · rfl

theorem popStep_push (capacity : Capacity) (q : SpscQueue α) :
    (q.popStep capacity).1.push = q.push := by
  rw [popStep]
  split
  · rfl
  · split <;> rfl
  · rfl
  · rfl

/-- The values from tail to head. -/
def contents (capacity : Capacity) (q : SpscQueue α) : List α :=
  (List.range ((q.head + capacity.value - q.tail) % capacity.value)).map fun i =>
    q.slots ((q.tail + i) % capacity.value)

/-- The distance of two counts less than a round apart, from their remainders. -/
theorem mod_add_sub_mod {a b n : Nat} (hle : a ≤ b) (hlt : b < a + n) :
    (b % n + n - a % n) % n = b - a := by
  obtain ⟨r, rfl⟩ := Nat.exists_eq_add_of_le hle
  have hr : r < n := by omega
  have ha : a % n < n := Nat.mod_lt _ (by omega)
  rw [Nat.add_mod, Nat.mod_eq_of_lt hr, Nat.add_sub_cancel_left]
  by_cases hround : a % n + r < n
  · rw [Nat.mod_eq_of_lt hround, show a % n + r + n - a % n = r + n by omega, Nat.add_mod_right,
      Nat.mod_eq_of_lt hr]
  · have hwrap : (a % n + r) % n = a % n + r - n := by
      rw [Nat.mod_eq_sub_mod (Nat.le_of_not_lt hround), Nat.mod_eq_of_lt (by omega)]
    rw [hwrap, show a % n + r - n + n - a % n = r by omega, Nat.mod_eq_of_lt hr]

/-- What has been pushed is what has been popped, and then what the ring holds. -/
theorem Sound.append_contents {ins outs : List α} (h : Sound capacity q ins outs) :
    ins = outs ++ q.contents capacity := by
  have hle := h.length_le
  have hlength : (q.contents capacity).length = ins.length - outs.length := by
    rw [contents, List.length_map, List.length_range, h.head_eq, h.tail_eq, mod_add_sub_mod hle h.room]
  obtain ⟨rest, rfl⟩ := h.fifo
  congr 1
  rw [List.length_append, Nat.add_sub_cancel_left] at hlength
  apply List.ext_getElem? fun i => ?_
  by_cases hi : i < rest.length
  · have hslot := h.slots_eq (outs.length + i) (Nat.le_add_right ..) (by simpa using hi)
    rw [List.getElem?_append_right (Nat.le_add_right ..), Nat.add_sub_cancel_left] at hslot
    rw [contents, List.length_map, List.length_range] at hlength
    rw [hslot, contents, hlength, List.getElem?_map, List.getElem?_range hi, Option.map_some, h.tail_eq,
      Nat.mod_add_mod]
  · rw [List.getElem?_eq_none (Nat.le_of_not_lt hi),
      List.getElem?_eq_none (hlength ▸ Nat.le_of_not_lt hi)]

/-- The ring holds a queue, and calls are under way only for the value being pushed and where something
is being popped. -/
structure Holds (capacity : Capacity) (q : SpscQueue α) (queue : List α) (pushing : Option α)
    (popping : Prop) : Prop where
  sound : ∃ outs, Sound capacity q (outs ++ queue) outs
  serves : q.push.Serves pushing
  pop_idle : ¬ popping → q.pop = .idle

theorem holds_initial (capacity : Capacity) (blank : α) (pushing : Option α) (popping : Prop) :
    Holds capacity (initial blank) [] pushing popping where
  sound := ⟨[], sound_initial capacity blank⟩
  serves := trivial
  pop_idle _ := rfl

theorem Sound.of_silent {ins outs : List α}
    (h : Sound capacity q (ins ++ pushes []) (outs ++ pops [])) : Sound capacity q ins outs := by
  change Sound capacity q (ins ++ []) (outs ++ []) at h
  rwa [List.append_nil, List.append_nil] at h

namespace Holds

theorem contents_eq (h : Holds capacity q queue pushing popping) : queue = q.contents capacity := by
  obtain ⟨outs, hsound⟩ := h.sound
  exact List.append_cancel_left hsound.append_contents

theorem mono (h : Holds capacity q queue pushing popping) {pushing' : Option α} {popping' : Prop}
    (hpushing : q.push = .idle ∨ pushing' = pushing) (hpopping : popping → popping') :
    Holds capacity q queue pushing' popping' := by
  refine ⟨h.sound, ?_, fun hnot => h.pop_idle fun hpop => hnot (hpopping hpop)⟩
  rcases hpushing with hidle | rfl
  · rw [hidle]
    trivial
  · exact h.serves

/-- Between two pushes the call is idle, so that any event can be pushed next. -/
theorem start (h : Holds capacity q queue none popping) (pushing : Option α) :
    Holds capacity q queue pushing popping :=
  h.mono (Or.inl (PushCall.eq_idle_of_serves h.serves)) id

/-- **One step of a push.** It goes on, or fails on a full queue, or has put its event in the queue. -/
theorem pushStep (h : Holds capacity q queue (some event) popping) :
    (∃ q', q.pushStep capacity event = (q', []) ∧ q'.push.stepsLeft < q.push.stepsLeft ∧
        Holds capacity q' queue (some event) popping) ∨
      (∃ q', q.pushStep capacity event = (q', [.pushFailed]) ∧ ¬ queue.length < capacity.value - 1 ∧
        Holds capacity q' queue none popping) ∨
      ∃ q', q.pushStep capacity event = (q', [.pushed event]) ∧ queue.length < capacity.value - 1 ∧
        Holds capacity q' (queue ++ [event]) none popping := by
  obtain ⟨outs, hsound⟩ := h.sound
  have hserves := h.serves
  have hpush := hsound.push
  have hstep := hsound.pushStep event
  rw [SpscQueue.pushStep] at hstep ⊢
  rw [PushSound, List.length_append] at hpush
  -- a step that nothing is returned from changes neither end of the queue
  have hsilent : ∀ {q' : SpscQueue α} {pushing : Option α}, q'.pop = q.pop → q'.push.Serves pushing →
      Sound capacity q' (outs ++ queue ++ pushes []) (outs ++ pops []) →
      Holds capacity q' queue pushing popping := by
    intro q' pushing hpop' hserves' hsound'
    exact ⟨⟨outs, hsound'.of_silent⟩, hserves', fun hnot => hpop'.trans (h.pop_idle hnot)⟩
  cases hcall : q.push with
  | idle =>
    simp only [hcall] at hstep ⊢
    exact Or.inl ⟨_, rfl, Nat.lt_succ_self _, hsilent rfl rfl hstep⟩
  | loadedHead value head =>
    simp only [hcall] at hstep hpush hserves ⊢
    subst hpush
    by_cases hfull : (q.head + 1) &&& capacity.mask = q.tail
    · rw [if_pos hfull] at hstep ⊢
      have hlength := hsound.next_eq_tail_iff.mp hfull
      rw [List.length_append] at hlength
      exact Or.inr (Or.inl ⟨_, rfl, by omega, hsilent rfl trivial hstep⟩)
    · rw [if_neg hfull] at hstep ⊢
      exact Or.inl ⟨_, rfl, Nat.lt_succ_self _, hsilent rfl hserves hstep⟩
  | admitted value head next =>
    simp only [hcall] at hstep hserves ⊢
    exact Or.inl ⟨_, rfl, Nat.lt_succ_self _, hsilent rfl hserves hstep⟩
  | written value next =>
    simp only [hcall] at hstep hpush hserves ⊢
    obtain ⟨-, hspace, -⟩ := hpush
    obtain rfl : event = value := Option.some.inj hserves
    refine Or.inr (Or.inr ⟨_, rfl, by omega, ⟨outs, ?_⟩, trivial, h.pop_idle⟩)
    rw [show pushes [QueueEvent.pushed event] = [event] from rfl,
      show pops [QueueEvent.pushed event] = [] from rfl, List.append_nil, List.append_assoc] at hstep
    exact hstep

/-- **One step of a pop.** It goes on, or fails on an empty queue, or has taken the first event. -/
theorem popStep (h : Holds capacity q queue pushing True) :
    (∃ q', q.popStep capacity = (q', []) ∧ q'.pop.stepsLeft < q.pop.stepsLeft ∧
        Holds capacity q' queue pushing True) ∨
      (∃ q', q.popStep capacity = (q', [.popFailed]) ∧ queue = [] ∧
        Holds capacity q' queue pushing False) ∨
      ∃ q' event rest, q.popStep capacity = (q', [.popped event]) ∧ queue = event :: rest ∧
        Holds capacity q' rest pushing False := by
  obtain ⟨outs, hsound⟩ := h.sound
  have hstep := hsound.popStep
  have hpop := hsound.pop
  rw [SpscQueue.popStep] at hstep ⊢
  rw [PopSound, List.length_append] at hpop
  have hsilent : ∀ {q' : SpscQueue α} {popping : Prop}, q'.push = q.push →
      (¬ popping → q'.pop = .idle) → Sound capacity q' (outs ++ queue ++ pushes []) (outs ++ pops []) →
      Holds capacity q' queue pushing popping := by
    intro q' popping hpush' hidle hsound'
    exact ⟨⟨outs, hsound'.of_silent⟩, hpush' ▸ h.serves, hidle⟩
  cases hcall : q.pop with
  | idle =>
    simp only [hcall] at hstep ⊢
    exact Or.inl ⟨_, rfl, Nat.lt_succ_self _, hsilent rfl (fun hnot => absurd trivial hnot) hstep⟩
  | loadedTail tail =>
    simp only [hcall] at hstep hpop ⊢
    subst hpop
    by_cases hempty : q.tail = q.head
    · rw [if_pos hempty] at hstep ⊢
      have hlength := hsound.tail_eq_head_iff.mp hempty
      rw [List.length_append] at hlength
      have hnil : queue = [] := List.eq_nil_of_length_eq_zero (by omega)
      exact Or.inr (Or.inl ⟨_, rfl, hnil, hsilent rfl (fun _ => rfl) hstep⟩)
    · rw [if_neg hempty] at hstep ⊢
      exact Or.inl ⟨_, rfl, Nat.lt_succ_self _, hsilent rfl (fun hnot => absurd trivial hnot) hstep⟩
  | admitted tail =>
    simp only [hcall] at hstep ⊢
    exact Or.inl ⟨_, rfl, Nat.lt_succ_self _, hsilent rfl (fun hnot => absurd trivial hnot) hstep⟩
  | read tail out =>
    simp only [hcall] at hstep ⊢
    rw [show pushes [QueueEvent.popped out] = [] from rfl, List.append_nil,
      show pops [QueueEvent.popped out] = [out] from rfl] at hstep
    obtain ⟨rest, hrest⟩ := (List.prefix_append_right_inj outs).mp hstep.fifo
    rw [← hrest, ← List.append_assoc] at hstep
    exact Or.inr (Or.inr ⟨_, out, rest, rfl, hrest.symm, ⟨_, hstep⟩, h.serves, fun _ => rfl⟩)

end Holds

end SpscQueue

namespace PushLoop

variable {α : Type} {capacity : Capacity} {ring : SpscQueue α} {queue : List α} {popping : Prop}
  {loop : PushLoop α}

/-- The event of the call that is under way or begins with the next step. -/
def attempt? : PushLoop α → Option α
  | .test _ => none
  | .attempt event => some event

theorem ringStep_pop (stop : Bool) (capacity : Capacity) (ring : SpscQueue α) (loop : PushLoop α) :
    (loop.ringStep stop capacity ring).2.pop = ring.pop := by
  cases loop with
  | test event => rfl
  | attempt event =>
    rw [ringStep, ← SpscQueue.pushStep_pop capacity ring event]
    split <;> simp only [*]

/-- **One step of the loop on a ring.** It is one within a call, or the step of the loop on the queue that
the ring holds. -/
theorem ringStep_spec (h : ring.Holds capacity queue loop.attempt? popping) (stop : Bool) :
    (∃ ring', loop.ringStep stop capacity ring = (some loop, ring') ∧
        ring'.push.stepsLeft < ring.push.stepsLeft ∧ ring'.Holds capacity queue loop.attempt? popping) ∨
      ∃ loop' ring' queue', loop.ringStep stop capacity ring = (loop', ring') ∧
        loop.step stop (capacity.value - 1) queue = (loop', queue') ∧
        ring'.Holds capacity queue' (loop'.bind attempt?) popping := by
  cases loop with
  | test event =>
    refine Or.inr ⟨_, ring, queue, rfl, rfl, ?_⟩
    cases stop with
    | true => exact h
    | false => exact h.start _
  | attempt event =>
    rw [PushLoop.ringStep, PushLoop.step]
    rcases h.pushStep with ⟨ring', hstep, hlt, h'⟩ | ⟨ring', hstep, hfull, h'⟩ | ⟨ring', hstep, hroom, h'⟩
    · exact Or.inl ⟨ring', by simp only [hstep], hlt, h'⟩
    · rw [if_neg hfull]
      exact Or.inr ⟨_, ring', queue, by simp only [hstep], rfl, h'⟩
    · rw [if_pos hroom]
      exact Or.inr ⟨_, ring', _, by simp only [hstep], rfl, h'⟩

end PushLoop

end MatchingEngine
