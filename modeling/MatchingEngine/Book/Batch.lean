import MatchingEngine.Book.Snapshot

/-!
# Inputs that do not meet

Adds that rest in full and cancels, of different ids, do not get into each other's way: each is answered
as if it came alone, and what the book becomes depends on the order in which they come only where orders
queue up at one price. So inputs that do not meet may be handled in any order that keeps those.
-/

namespace MatchingEngine

open Divisible PriorityBook

variable {T : SignedInt} {c : Clob} {levels : Side → List (List Slot)}

namespace InputEvent

/-- The id that an input is about. -/
def orderId? : InputEvent → Option Int
  | addOrder event => some event.orderId
  | cancelOrder event => some event.orderId
  | shutdown => none

def cancelled? : InputEvent → Option Int
  | cancelOrder event => some event.orderId
  | _ => none

/-- The order that an add enters if it rests in full. -/
def order? : InputEvent → Option RestingOrder
  | addOrder event => some ⟨event.orderId, event.side, event.price, event.quantity⟩
  | _ => none

end InputEvent

/-- The orders of a batch that are to queue up with each other. -/
def queueing (batch : List InputEvent) (side : Side) (price : Int) : List RestingOrder :=
  (batch.filterMap InputEvent.order?).filter fun o => o.side = side ∧ o.price = price

/-- A batch of inputs that do not meet: each id is named once, and each add rests in full, whichever of
the others have come to rest before. -/
structure Apart (c : Clob) (batch : List InputEvent) : Prop where
  rests : ∀ add, .addOrder add ∈ batch → RestsInFull c add
  clear : ∀ add add', .addOrder add ∈ batch → .addOrder add' ∈ batch →
    add'.side = add.side.opposite → ¬ Crosses add'.side add.price add'.price
  nodup : (batch.filterMap InputEvent.orderId?).Nodup

namespace PriorityBook

variable {b : PriorityBook} {event e : InputEvent} {batch : List InputEvent}

/-- What an input is answered with when it comes alone. -/
def answer (b : PriorityBook) (event : InputEvent) : List OutputEvent := (b.onInput true event).2

/-- The book after an input that meets no other order. -/
def after (b : PriorityBook) : InputEvent → PriorityBook
  | .addOrder event => b.rest ⟨event.orderId, event.side, event.price, event.quantity⟩
  | .cancelOrder event => b.withdraw event.orderId
  | .shutdown => b

/-- An add that rests in full. -/
def Rests (b : PriorityBook) (add : AddOrderEvent) : Prop :=
  add.Accepted ∧ add.tif = .gtc ∧ add.orderId ∉ b.orders.map RestingOrder.orderId ∧
    b.makers add.side add.price = []

structure StandApart (b : PriorityBook) (batch : List InputEvent) : Prop where
  rests : ∀ add, .addOrder add ∈ batch → b.Rests add
  clear : ∀ add add', .addOrder add ∈ batch → .addOrder add' ∈ batch →
    add'.side = add.side.opposite → ¬ Crosses add'.side add.price add'.price
  nodup : (batch.filterMap InputEvent.orderId?).Nodup

/-! ### One input -/

theorem onCancelOrder_fst (h : b.Valid) (event : CancelOrderEvent) :
    (b.onCancelOrder event).1 = b.withdraw event.orderId := by
  have habsent : b.find? event.orderId = none → b.withdraw event.orderId = b := by
    intro hfind
    apply withdraw_of_absent
    intro hmem
    obtain ⟨o, ho, hid⟩ := List.mem_map.mp hmem
    rw [h.find?_eq_some_iff.mpr ⟨ho, hid⟩] at hfind
    cases hfind
  rw [onCancelOrder]
  by_cases hid : event.orderId ≤ 0
  · rw [if_pos hid]
    refine (habsent ?_).symm
    rw [Option.eq_none_iff_forall_not_mem]
    intro o ho
    obtain ⟨hmem, hoid⟩ := h.find?_eq_some_iff.mp ho
    obtain ⟨side, hside⟩ := mem_orders.mp hmem
    exact absurd (h.orderId_pos side o hside) (not_lt.mpr (hoid ▸ hid))
  · rw [if_neg hid]
    cases hfind : b.find? event.orderId with
    | none => exact (habsent hfind).symm
    | some o => rfl

theorem onInput_of_rests (h : b.Valid) (hrests : ∀ add, event = .addOrder add → b.Rests add)
    (fillable : Bool) : b.onInput fillable event = (b.after event, b.answer event) := by
  cases event with
  | shutdown => rfl
  | cancelOrder event => exact Prod.ext (onCancelOrder_fst h event) rfl
  | addOrder add =>
    obtain ⟨haccepted, hgtc, hfresh, hclear⟩ := hrests add rfl
    rw [answer, onInput_of_clear h haccepted hgtc hfresh hclear,
      onInput_of_clear h haccepted hgtc hfresh hclear]
    rfl

theorem valid_after (h : b.Valid) (hrests : ∀ add, event = .addOrder add → b.Rests add) :
    (b.after event).Valid := by
  have hvalid := h.onInput true event
  rwa [onInput_of_rests h hrests] at hvalid

/-! ### One input and another -/

theorem find?_rest (h : b.Valid) {o : RestingOrder} (hvalid : (b.rest o).Valid) {orderId : Int}
    (hne : o.orderId ≠ orderId) : (b.rest o).find? orderId = b.find? orderId := by
  ext p
  rw [hvalid.find?_eq_some_iff, h.find?_eq_some_iff, (rest_orders_perm b o).mem_iff, List.mem_cons]
  constructor
  · rintro ⟨rfl | hp, hid⟩
    · exact absurd hid hne
    · exact ⟨hp, hid⟩
  · rintro ⟨hp, hid⟩
    exact ⟨Or.inr hp, hid⟩

/-- An input of another id is answered as before. -/
theorem find?_after (h : b.Valid) (hrests : ∀ add, event = .addOrder add → b.Rests add) {orderId : Int}
    (hne : event.orderId? ≠ some orderId) : (b.after event).find? orderId = b.find? orderId := by
  have hvalid := valid_after h hrests
  cases event with
  | shutdown => rfl
  | cancelOrder event => exact find?_withdraw b fun heq => hne (heq ▸ rfl)
  | addOrder add => exact find?_rest h hvalid fun heq => hne (heq ▸ rfl)

theorem mem_orderIds_iff (b : PriorityBook) (orderId : Int) :
    orderId ∈ b.orders.map RestingOrder.orderId ↔ b.find? orderId ≠ none := by
  rw [find?, ne_eq, List.find?_eq_none]
  simp

theorem Rests.after (h : b.Valid) (hrests : ∀ add, event = .addOrder add → b.Rests add)
    {add' : AddOrderEvent} (hadd' : b.Rests add') (hne : event.orderId? ≠ some add'.orderId)
    (hclear : ∀ add, event = .addOrder add → add.side = add'.side.opposite →
      ¬ Crosses add.side add'.price add.price) : (b.after event).Rests add' := by
  obtain ⟨haccepted, hgtc, hfresh, hmakers⟩ := hadd'
  refine ⟨haccepted, hgtc, ?_, ?_⟩
  · rwa [mem_orderIds_iff, find?_after h hrests hne, ← mem_orderIds_iff]
  · rw [makers, crossed, List.filter_eq_nil_iff] at hmakers ⊢
    intro o ho
    cases event with
    | shutdown => exact hmakers o ho
    | cancelOrder event => exact hmakers o (List.mem_of_mem_filter ho)
    | addOrder add =>
      rcases mem_rest.mp ho with ⟨rfl, hside⟩ | ho
      · have hnot := hclear add rfl hside.symm
        rw [hside]
        simpa using hnot
      · exact hmakers o ho

theorem answer_after (h : b.Valid) (hrests : ∀ add, event = .addOrder add → b.Rests add)
    (hne : ∀ orderId, e.orderId? = some orderId → event.orderId? ≠ some orderId)
    (he : ∀ add, e = .addOrder add → b.Rests add ∧ (b.after event).Rests add) :
    (b.after event).answer e = b.answer e := by
  cases e with
  | shutdown => rfl
  | addOrder add =>
    obtain ⟨⟨haccepted, hgtc, hfresh, hclear⟩, -, -, hfresh', hclear'⟩ := he add rfl
    rw [answer, answer, onInput_of_clear h haccepted hgtc hfresh hclear,
      onInput_of_clear (valid_after h hrests) haccepted hgtc hfresh' hclear']
  | cancelOrder cancel =>
    simp only [answer, PriorityBook.onInput, onCancelOrder, find?_after h hrests (hne _ rfl)]
    split
    · rfl
    · split <;> rfl

namespace StandApart

variable (h : b.Valid) (hapart : StandApart b (event :: batch))

include hapart

theorem head : ∀ add, event = .addOrder add → b.Rests add := by
  rintro add rfl
  exact hapart.rests add (List.mem_cons_self ..)

/-- The others name other ids. -/
theorem orderId?_ne : ∀ e ∈ batch, ∀ orderId, e.orderId? = some orderId → event.orderId? ≠ some orderId := by
  intro e he orderId hid heq
  have hnodup := hapart.nodup
  rw [List.filterMap_cons_some heq, List.nodup_cons] at hnodup
  exact hnodup.1 (List.mem_filterMap.mpr ⟨e, he, hid⟩)

include h

theorem tail : StandApart (b.after event) batch where
  rests add' hadd' := by
    refine (hapart.rests add' (List.mem_cons_of_mem _ hadd')).after h hapart.head
      (hapart.orderId?_ne _ hadd' _ rfl) ?_
    rintro add rfl hside
    exact hapart.clear add' add (List.mem_cons_of_mem _ hadd') (List.mem_cons_self ..) hside
  clear add add' hadd hadd' :=
    hapart.clear add add' (List.mem_cons_of_mem _ hadd) (List.mem_cons_of_mem _ hadd')
  nodup := by
    have hnodup := hapart.nodup
    rw [List.filterMap_cons] at hnodup
    split at hnodup
    · exact hnodup
    · exact (List.nodup_cons.mp hnodup).2

theorem answer_eq : ∀ e ∈ batch, (b.after event).answer e = b.answer e := by
  intro e he
  refine answer_after h hapart.head (hapart.orderId?_ne e he) ?_
  rintro add rfl
  exact ⟨hapart.rests add (List.mem_cons_of_mem _ he), (hapart.tail h).rests add he⟩

end StandApart

/-! ### The whole batch -/

/-- What the batch leaves at a price: those that it does not cancel, and behind them its own. -/
theorem filter_afterAll (h : b.Valid) (hapart : StandApart b batch) (side : Side) (price : Int) :
    (batch.foldl after b side).filter (fun o => o.price = price)
      = ((b side).filter fun o => o.price = price).filter
          (fun o => o.orderId ∉ batch.filterMap InputEvent.cancelled?) ++ queueing batch side price := by
  induction batch generalizing b with
  | nil => simp [queueing]
  | cons event batch ih =>
    rw [List.foldl_cons, ih (valid_after h hapart.head) (hapart.tail h)]
    cases event with
    | shutdown => rfl
    | cancelOrder event =>
      simp only [after, withdraw, queueing, List.filter_filter, List.filterMap_cons,
        InputEvent.cancelled?, InputEvent.order?, List.mem_cons]
      congr 2
      funext o
      grind
    | addOrder add =>
      have hkept : add.orderId ∉ batch.filterMap InputEvent.cancelled? := by
        intro hmem
        obtain ⟨e, he, hid⟩ := List.mem_filterMap.mp hmem
        refine hapart.orderId?_ne e he add.orderId ?_ rfl
        cases e with
        | cancelOrder event => exact hid
        | addOrder event => cases hid
        | shutdown => cases hid
      simp only [after, queueing, List.filterMap_cons, InputEvent.cancelled?, InputEvent.order?,
        List.filter_cons]
      by_cases hside : side = add.side
      · subst hside
        rw [rest_same, filter_price_enqueue (h.ranked _), List.filter_append, List.append_assoc]
        by_cases hprice : add.price = price
        · rw [if_pos hprice, List.filter_cons_of_pos (by simpa using hkept)]
          simp [hprice]
        · simp [hprice]
      · rw [rest, Function.update_of_ne hside]
        simp [Ne.symm hside]

theorem ranked_afterAll (h : b.Valid) (hapart : StandApart b batch) :
    ∀ side, Ranked side (batch.foldl after b side) := by
  induction batch generalizing b with
  | nil => exact h.ranked
  | cons event batch ih => exact ih (valid_after h hapart.head) (hapart.tail h)

theorem StandApart.perm {batch' : List InputEvent} (hapart : StandApart b batch)
    (hperm : batch'.Perm batch) : StandApart b batch' where
  rests add hadd := hapart.rests add (hperm.mem_iff.mp hadd)
  clear add add' hadd hadd' := hapart.clear add add' (hperm.mem_iff.mp hadd) (hperm.mem_iff.mp hadd')
  nodup := (hperm.filterMap _).nodup_iff.mpr hapart.nodup

/-- The order in which the batch comes shows in its queues alone. -/
theorem afterAll_perm {batch' : List InputEvent} (h : b.Valid) (hapart : StandApart b batch)
    (hperm : batch'.Perm batch)
    (hqueues : ∀ side price, queueing batch' side price = queueing batch side price) :
    batch'.foldl after b = batch.foldl after b := by
  funext side
  apply (ranked_afterAll h (hapart.perm hperm) side).ext (ranked_afterAll h hapart side)
  intro price
  rw [filter_afterAll h (hapart.perm hperm), filter_afterAll h hapart, hqueues]
  congr 2
  funext o
  simp only [(hperm.filterMap InputEvent.cancelled?).mem_iff]

end PriorityBook

namespace Represents

theorem standApart (h : Represents T c levels) {batch : List InputEvent} (hapart : Apart c batch) :
    StandApart (bookOf levels) batch where
  rests add hadd := by
    obtain ⟨haccepted, hgtc, hfresh, hclear⟩ := hapart.rests add hadd
    exact ⟨haccepted, hgtc, (h.fresh_iff _).mp hfresh, h.makers_eq add ▸ hclear⟩
  clear := hapart.clear
  nodup := hapart.nodup

theorem onInput_apart (h : Represents T c levels) {event : InputEvent} (hfits : event.Fits T)
    (hrests : ∀ add, event = .addOrder add → (bookOf levels).Rests add) :
    ∃ c₁ levels₁, c.onInput T event = .ok (c₁, (bookOf levels).answer event) ∧
      Represents T c₁ levels₁ ∧ bookOf levels₁ = (bookOf levels).after event := by
  obtain ⟨c₁, levels₁, hinput, hbecomes⟩ := h.onInput hfits
  rw [onInput_of_rests h.valid hrests] at hinput hbecomes
  exact ⟨c₁, levels₁, hinput, hbecomes.represents, hbecomes.book_eq⟩

theorem run_apart (h : Represents T c levels) {batch : List InputEvent} (hfits : ∀ e ∈ batch, e.Fits T)
    (hapart : StandApart (bookOf levels) batch) :
    ∃ c' levels', c.run T batch = .ok (c', batch.flatMap (bookOf levels).answer) ∧
      Represents T c' levels' ∧ bookOf levels' = batch.foldl after (bookOf levels) := by
  induction batch generalizing c levels with
  | nil => exact ⟨c, levels, rfl, h, rfl⟩
  | cons event batch ih =>
    obtain ⟨c₁, levels₁, hinput, hc₁, hbook⟩ :=
      h.onInput_apart (hfits event (List.mem_cons_self ..)) hapart.head
    obtain ⟨c₂, levels₂, hrun, hc₂, hbook'⟩ := ih hc₁ (fun e he => hfits e (List.mem_cons_of_mem _ he))
      (hbook ▸ hapart.tail h.valid)
    have hanswers : batch.flatMap (bookOf levels₁).answer = batch.flatMap (bookOf levels).answer := by
      rw [hbook]
      exact List.flatMap_congr fun e he => hapart.answer_eq h.valid e he
    refine ⟨c₂, levels₂, ?_, hc₂, ?_⟩
    · simp only [Clob.run, hinput, ok_bind, hrun, hanswers]
      rfl
    · rw [hbook', hbook]
      rfl

end Represents

/-- **Inputs that do not meet commute.** In any order that keeps the orders which are to queue up with
each other, such a batch is answered input by input as if each came alone, and the book that it leaves
is the same. -/
theorem run_batch (events : List InputEvent) (hfits : ∀ e ∈ events, e.Fits T) {emitted : List OutputEvent}
    (hrun : Clob.run T {} events = .ok (c, emitted)) (batch : List InputEvent)
    (hbatch : ∀ e ∈ batch, e.Fits T) (hapart : Apart c batch) :
    ∃ answer : InputEvent → List OutputEvent,
      (∀ e ∈ batch, ∃ c₁, c.onInput T e = .ok (c₁, answer e)) ∧
      ∃ view, ∀ batch' : List InputEvent, batch'.Perm batch →
        (∀ side price, queueing batch' side price = queueing batch side price) →
        ∃ c', c.run T batch' = .ok (c', batch'.flatMap answer) ∧ c'.view = view := by
  obtain ⟨c₀, emitted₀, levels, hrun₀, hc⟩ := run_represents events hfits
  obtain ⟨rfl, rfl⟩ := ok_unique hrun hrun₀
  have hstand := hc.standApart hapart
  refine ⟨(bookOf levels).answer, ?_, ?_⟩
  · intro e he
    obtain ⟨c₁, levels₁, hinput, -⟩ := hc.onInput_apart (hbatch e he) fun add hadd =>
      hstand.rests add (hadd ▸ he)
    exact ⟨c₁, hinput⟩
  · obtain ⟨c₁, levels₁, -, hc₁, hbook₁⟩ := hc.run_apart hbatch hstand
    refine ⟨c₁.view, fun batch' hperm hqueues => ?_⟩
    obtain ⟨c', levels', hrun', hc', hbook'⟩ :=
      hc.run_apart (fun e he => hbatch e (hperm.mem_iff.mp he)) (hstand.perm hperm)
    refine ⟨c', hrun', hc'.view_eq hc₁ ?_⟩
    rw [hbook', hbook₁, afterAll_perm hc.valid hstand hperm hqueues]

/-- Two adds that queue up, an add elsewhere and a cancel. -/
theorem run_batch_four :
    ∃ c emitted, Clob.run .int64 {} [.addOrder ⟨1, .buy, 5, 100, .gtc⟩] = .ok (c, emitted) ∧
      ∃ answer : InputEvent → List OutputEvent,
        (∀ e ∈ [InputEvent.addOrder ⟨2, .buy, 3, 100, .gtc⟩, .addOrder ⟨3, .buy, 4, 100, .gtc⟩,
          .addOrder ⟨4, .sell, 6, 102, .gtc⟩, .cancelOrder ⟨1⟩],
          ∃ c₁, c.onInput .int64 e = .ok (c₁, answer e)) ∧
        ∃ view, ∀ batch' : List InputEvent,
          batch'.Perm [.addOrder ⟨2, .buy, 3, 100, .gtc⟩, .addOrder ⟨3, .buy, 4, 100, .gtc⟩,
            .addOrder ⟨4, .sell, 6, 102, .gtc⟩, .cancelOrder ⟨1⟩] →
          (∀ side price, queueing batch' side price
            = queueing [.addOrder ⟨2, .buy, 3, 100, .gtc⟩, .addOrder ⟨3, .buy, 4, 100, .gtc⟩,
              .addOrder ⟨4, .sell, 6, 102, .gtc⟩, .cancelOrder ⟨1⟩] side price) →
          ∃ c', c.run .int64 batch' = .ok (c', batch'.flatMap answer) ∧ c'.view = view := by
  refine ⟨_, _, rfl, run_batch [.addOrder ⟨1, .buy, 5, 100, .gtc⟩] (by decide +kernel) rfl
    _ (by decide +kernel) ⟨?_, ?_, by decide +kernel⟩⟩
  · intro add hadd
    simp only [List.mem_cons, InputEvent.addOrder.injEq, reduceCtorEq, List.not_mem_nil, or_false] at hadd
    rcases hadd with rfl | rfl | rfl <;> decide +kernel
  · intro add add' hadd hadd' hside
    simp only [List.mem_cons, InputEvent.addOrder.injEq, reduceCtorEq, List.not_mem_nil, or_false]
      at hadd hadd'
    rcases hadd with rfl | rfl | rfl <;> rcases hadd' with rfl | rfl | rfl <;> revert hside <;> decide

end MatchingEngine
