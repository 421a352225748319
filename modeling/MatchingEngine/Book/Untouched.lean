import MatchingEngine.Book.Batch
import MatchingEngine.Book.ImmediateOrCancel
import MatchingEngine.Book.Probe

/-!
# Orders that never trade

As long as nothing is taken from an order, no other input sees it: demands are met without it, a
fill-or-kill order is let through or not as it would be anyway, and what comes to rest finds its place past
it. So an order that rests in full, never trades and is cancelled again may as well not have been there,
however much the book has traded around it.
-/

namespace MatchingEngine

open Divisible PriorityBook

variable {T : SignedInt} {c c' : Clob} {levels levels' : Side → List (List Slot)}

namespace PriorityBook

variable {b : PriorityBook} {orderId : Int}

/-- The demand on the makers takes nothing from this order. -/
def Spares (b : PriorityBook) (orderId : Int) (event : AddOrderEvent) : Prop :=
  ∀ take ∈ takes event.quantity (b.makers event.side event.price), take.1.orderId ≠ orderId

/-! ### What is announced, and what is taken -/

theorem mem_trades_fillEvents {taker q : Int} {os : List RestingOrder} {take : RestingOrder × Int}
    (h : take ∈ takes q os) (terminal : OutputEvent) :
    ⟨taker, take.1.orderId, take.2⟩ ∈ trades (fillEvents taker q os ++ [terminal]) :=
  List.mem_filterMap.mpr ⟨.trade _, List.mem_append_left _ (List.mem_flatMap.mpr ⟨take, h, List.mem_cons_self⟩),
    rfl⟩

/-- An add that is not killed spares the orders that none of its trades names. -/
theorem spares_of_trades {fillable : Bool} {event : AddOrderEvent}
    (hkill : ¬ (event.tif = .fok ∧ fillable = false))
    (h : ∀ trade ∈ trades (b.addOrder fillable event).2, trade.restingOrderId ≠ orderId) :
    b.Spares orderId event := by
  revert h
  apply addOrder_cases (P := fun _ emitted =>
    (∀ trade ∈ trades emitted, trade.restingOrderId ≠ orderId) → b.Spares orderId event)
  · exact fun hfok hfillable => absurd ⟨hfok, hfillable⟩ hkill
  · exact fun _ h take htake => h _ (mem_trades_fillEvents htake _)
  · exact fun _ _ _ h take htake => h _ (mem_trades_fillEvents htake _)
  · exact fun _ _ _ h take htake => h _ (mem_trades_fillEvents htake _)
  · exact fun _ _ _ h take htake => h _ (mem_trades_fillEvents htake _)

/-! ### A demand without the order -/

theorem makers_withdraw (b : PriorityBook) (orderId : Int) (side : Side) (limit : Int) :
    (b.withdraw orderId).makers side limit = (b.makers side limit).filter fun o => o.orderId ≠ orderId := by
  rw [makers, makers, crossed, crossed, withdraw, List.filter_comm]

theorem bystanders_withdraw (b : PriorityBook) (orderId : Int) (side : Side) (limit : Int) :
    (b.withdraw orderId).bystanders side limit
      = (b.bystanders side limit).filter fun o => o.orderId ≠ orderId := by
  rw [bystanders, bystanders, uncrossed, uncrossed, withdraw, List.filter_comm]

theorem Spares.kept {event : AddOrderEvent} (h : b.Spares orderId event) :
    ∀ take ∈ takes event.quantity (b.makers event.side event.price),
      decide (take.1.orderId ≠ orderId) = true :=
  fun take htake => decide_eq_true (h take htake)

theorem Spares.min_total_withdraw {event : AddOrderEvent} (hspares : b.Spares orderId event) (h : b.Valid)
    (hqty : 0 ≤ event.quantity) :
    min event.quantity (total ((b.withdraw orderId).makers event.side event.price))
      = min event.quantity (total (b.makers event.side event.price)) := by
  rw [makers_withdraw]
  exact min_total_filter (h.positive_makers event.side event.price) hqty hspares.kept

theorem Spares.fillEvents_withdraw {event : AddOrderEvent} (hspares : b.Spares orderId event) (taker : Int) :
    fillEvents taker event.quantity ((b.withdraw orderId).makers event.side event.price)
      = fillEvents taker event.quantity (b.makers event.side event.price) := by
  rw [makers_withdraw, fillEvents, fillEvents]
  exact congrArg _ (takes_filter hspares.kept)

theorem Spares.sweep_withdraw {event : AddOrderEvent} (h : b.Spares orderId event) :
    (b.withdraw orderId).sweep event.side event.price event.quantity
      = (b.sweep event.side event.price event.quantity).withdraw orderId := by
  funext side
  by_cases hside : side = event.side.opposite
  · subst hside
    have hleft := left_filter (f := fun o : RestingOrder => o.orderId ≠ orderId) (fun _ _ => rfl) h.kept
    rw [sweep_opposite, makers_withdraw, bystanders_withdraw, hleft, withdraw, sweep_opposite,
      List.filter_append]
  · rw [sweep, Function.update_of_ne hside, withdraw, withdraw, sweep, Function.update_of_ne hside]

theorem Spares.mem_sweep {event : AddOrderEvent} {o : RestingOrder} (h : b.Valid)
    (hspares : b.Spares o.orderId event) (ho : o ∈ b.orders) :
    o ∈ (b.sweep event.side event.price event.quantity).orders := by
  obtain ⟨side, hside⟩ := mem_orders.mp ho
  refine mem_orders.mpr ⟨side, ?_⟩
  by_cases heq : side = event.side.opposite
  · subst heq
    rw [← h.makers_append_bystanders event.side event.price] at hside
    rw [sweep_opposite]
    rcases List.mem_append.mp hside with hmaker | hbystander
    · refine List.mem_append_left _ (mem_left_of_not_taken hmaker fun take htake htaken => ?_)
      exact hspares take htake (congrArg RestingOrder.orderId htaken)
    · exact List.mem_append_right _ hbystander
  · rwa [sweep, Function.update_of_ne heq]

theorem orderIds_withdraw_iff (b : PriorityBook) {id : Int} (hne : id ≠ orderId) :
    id ∈ (b.withdraw orderId).orders.map RestingOrder.orderId ↔ id ∈ b.orders.map RestingOrder.orderId := by
  rw [mem_orderIds_iff, find?_withdraw b hne, ← mem_orderIds_iff]

/-- An exact probe does not see an order that the demand would spare. -/
theorem probe_withdraw (h : b.Valid) {event : AddOrderEvent} (hqty : 0 < event.quantity)
    (hspares : event.quantity ≤ total (b.makers event.side event.price) → b.Spares orderId event) :
    (event.quantity ≤ total ((b.withdraw orderId).makers event.side event.price)
      ↔ event.quantity ≤ total (b.makers event.side event.price)) := by
  have hpositive := h.positive_makers event.side event.price
  constructor
  · intro hle
    rw [makers_withdraw] at hle
    exact hle.trans (hpositive.total_le_of_sublist List.filter_sublist)
  · intro hle
    have hmin := (hspares hle).min_total_withdraw h hqty.le
    omega

/-! ### One input without the order -/

theorem withdraw_addOrder (h : b.Valid) {event : AddOrderEvent} (hne : event.orderId ≠ orderId)
    (hqty : 0 < event.quantity) {fillable fillable' : Bool}
    (hprobe : event.tif = .fok → fillable' = fillable)
    (hspares : ¬ (event.tif = .fok ∧ fillable = false) → b.Spares orderId event) :
    (b.withdraw orderId).addOrder fillable' event
      = ((b.addOrder fillable event).1.withdraw orderId, (b.addOrder fillable event).2) := by
  have hkill : event.tif = .fok ∧ fillable' = false ↔ event.tif = .fok ∧ fillable = false :=
    and_congr_right fun hfok => by rw [hprobe hfok]
  simp only [addOrder, hkill]
  by_cases hkilled : event.tif = .fok ∧ fillable = false
  · rw [if_pos hkilled, if_pos hkilled]
  have hspares := hspares hkilled
  have hrest : ∀ residue : Int, ((b.sweep event.side event.price event.quantity).rest
      ⟨event.orderId, event.side, event.price, residue⟩).withdraw orderId
        = ((b.sweep event.side event.price event.quantity).withdraw orderId).rest
          ⟨event.orderId, event.side, event.price, residue⟩ :=
    fun residue => withdraw_rest (h.sweep event.side event.price event.quantity) hne
  simp only [if_neg hkilled, hspares.sweep_withdraw, hspares.min_total_withdraw h hqty.le,
    hspares.fillEvents_withdraw, orderIds_withdraw_iff _ hne, ← hrest]
  split
  · rfl
  split
  · split
    · rfl
    · rfl
  · rfl

theorem mem_addOrder (h : b.Valid) {o : RestingOrder} (ho : o ∈ b.orders) {event : AddOrderEvent}
    {fillable : Bool} (hspares : ¬ (event.tif = .fok ∧ fillable = false) → b.Spares o.orderId event) :
    o ∈ (b.addOrder fillable event).1.orders := by
  by_cases hkill : event.tif = .fok ∧ fillable = false
  · rwa [addOrder, if_pos hkill]
  have hswept := (hspares hkill).mem_sweep h ho
  apply addOrder_cases (P := fun b' _ => o ∈ b'.orders)
  · exact fun _ _ => ho
  · exact fun _ => hswept
  · exact fun _ _ _ => hswept
  · exact fun _ _ _ => (rest_orders_perm ..).mem_iff.mpr (List.mem_cons_of_mem _ hswept)
  · exact fun _ _ _ => hswept

/-- **One input.** It is answered without the order as with it, and the order stays. -/
theorem withdraw_onInput (h : b.Valid) {o : RestingOrder} (ho : o ∈ b.orders) {event : InputEvent}
    (hne : event.orderId? ≠ some o.orderId) {fillable fillable' : Bool}
    (hprobe : ∀ add, event = .addOrder add → add.Accepted → add.tif = .fok →
      (fillable = true → b.Spares o.orderId add) → fillable' = fillable)
    (huntouched : ∀ trade ∈ trades (b.onInput fillable event).2, trade.restingOrderId ≠ o.orderId) :
    (b.withdraw o.orderId).onInput fillable' event
        = ((b.onInput fillable event).1.withdraw o.orderId, (b.onInput fillable event).2) ∧
      o ∈ (b.onInput fillable event).1.orders := by
  cases event with
  | shutdown => exact ⟨rfl, ho⟩
  | cancelOrder event =>
    have hid : event.orderId ≠ o.orderId := fun heq => hne (congrArg some heq)
    refine ⟨withdraw_onCancelOrder b hid, ?_⟩
    apply onCancelOrder_cases (P := fun b' _ => o ∈ b'.orders)
    · exact fun _ => ho
    · intro p _ hp
      rw [orders_withdraw]
      exact List.mem_filter.mpr ⟨ho, decide_eq_true fun heq => hid (heq ▸ hp).symm⟩
  | addOrder event =>
    have hid : event.orderId ≠ o.orderId := fun heq => hne (congrArg some heq)
    simp only [onInput, onAddOrder] at huntouched ⊢
    by_cases hbadId : event.orderId ≤ 0
    · simpa only [if_pos hbadId, true_and] using ho
    by_cases hbadQuantity : event.quantity ≤ 0
    · simpa only [if_neg hbadId, if_pos hbadQuantity, true_and] using ho
    by_cases hbadPrice : event.price ≤ 0
    · simpa only [if_neg hbadId, if_neg hbadQuantity, if_pos hbadPrice, true_and] using ho
    simp only [if_neg hbadId, if_neg hbadQuantity, if_neg hbadPrice] at huntouched ⊢
    have hspares : ¬ (event.tif = .fok ∧ fillable = false) → b.Spares o.orderId event :=
      fun hkill => spares_of_trades hkill huntouched
    have haccepted : event.Accepted := ⟨not_le.mp hbadId, not_le.mp hbadQuantity, not_le.mp hbadPrice⟩
    refine ⟨withdraw_addOrder h hid haccepted.2.1 (fun hfok => ?_) hspares, mem_addOrder h ho hspares⟩
    exact hprobe event rfl haccepted hfok fun hfillable => hspares fun hkill => by
      rw [hfillable] at hkill
      cases hkill.2

end PriorityBook

/-! ### A run without the order -/

/-- Where a fill-or-kill order arrives, the opposite side sums to a value of the type. -/
def RoomToProbe (T : SignedInt) (c : Clob) (events : List InputEvent) : Prop :=
  ∀ before fok after, events = before ++ .addOrder fok :: after → fok.tif = .fok →
    ∀ c' emitted, c.run T before = .ok (c', emitted) →
      T.Fits (total (c'.restingOrders fok.side.opposite))

theorem RoomToProbe.tail {event : InputEvent} {events : List InputEvent}
    (h : RoomToProbe T c (event :: events)) {emitted : List OutputEvent}
    (hinput : c.onInput T event = .ok (c', emitted)) : RoomToProbe T c' events := by
  intro before fok after hsplit hfok c'' emitted' hrun
  refine h (event :: before) fok after (by rw [hsplit]; rfl) hfok c'' (emitted ++ emitted') ?_
  simp only [Clob.run, hinput, ok_bind, hrun]
  rfl

/-- The second book is the first without an order of the first. -/
structure Without (T : SignedInt) (o : RestingOrder) (c c' : Clob) (levels levels' : Side → List (List Slot)) :
    Prop where
  left : Represents T c levels
  right : Represents T c' levels'
  rests : o ∈ (bookOf levels).orders
  book_eq : bookOf levels' = (bookOf levels).withdraw o.orderId

namespace Without

variable {o : RestingOrder}

/-- The decision on a fill-or-kill order that would spare the order is the same without it. -/
theorem probe_eq (h : Without T o c c' levels levels') {fok : AddOrderEvent} (hqty : 0 < fok.quantity)
    (hfits : T.Fits (total (c.restingOrders fok.side.opposite)))
    (hspares : c.probe T (.addOrder fok) = true → (bookOf levels).Spares o.orderId fok) :
    c'.probe T (.addOrder fok) = c.probe T (.addOrder fok) := by
  rw [h.left.restingOrders_eq] at hfits
  have hpositive := h.left.valid.positive fok.side.opposite
  have hfits' : T.Fits (total (bookOf levels' fok.side.opposite)) := by
    rw [h.book_eq]
    exact hfits.of_le (Positive.total_nonneg fun p hp => hpositive p (List.mem_of_mem_filter hp))
      (hpositive.total_le_of_sublist List.filter_sublist)
  have hprobe : c.probe T (.addOrder fok)
      = decide (fok.quantity ≤ total ((bookOf levels).makers fok.side fok.price)) :=
    h.left.fillableAtLimit_eq hqty hfits
  have hprobe' : c'.probe T (.addOrder fok)
      = decide (fok.quantity ≤ total ((bookOf levels').makers fok.side fok.price)) :=
    h.right.fillableAtLimit_eq hqty hfits'
  rw [hprobe', hprobe, h.book_eq]
  exact decide_eq_decide.mpr (probe_withdraw h.left.valid hqty fun hle =>
    hspares (hprobe.trans (decide_eq_true hle)))

/-- **One input that takes nothing from the order.** -/
theorem onInput (h : Without T o c c' levels levels') {event : InputEvent} (hfits : event.Fits T)
    (hne : event.orderId? ≠ some o.orderId)
    (hroom : ∀ fok, event = .addOrder fok → fok.tif = .fok →
      T.Fits (total (c.restingOrders fok.side.opposite)))
    {c₁ : Clob} {emitted : List OutputEvent} (hinput : c.onInput T event = .ok (c₁, emitted))
    (huntouched : ∀ trade ∈ trades emitted, trade.restingOrderId ≠ o.orderId) :
    ∃ c₁' levels₁ levels₁', c'.onInput T event = .ok (c₁', emitted) ∧ Without T o c₁ c₁' levels₁ levels₁' := by
  obtain ⟨c₀, levels₁, hinput₀, hbecomes⟩ := h.left.onInput hfits
  obtain ⟨rfl, rfl⟩ := ok_unique hinput hinput₀
  obtain ⟨c₁', levels₁', hinput', hbecomes'⟩ := h.right.onInput hfits
  rw [h.book_eq] at hinput' hbecomes'
  obtain ⟨hsame, hrests⟩ := withdraw_onInput h.left.valid h.rests hne
    (fun fok hevent haccepted hfok hspares => hevent ▸ h.probe_eq haccepted.2.1 (hroom fok hevent hfok)
      (hevent ▸ hspares)) huntouched
  rw [hsame] at hinput' hbecomes'
  refine ⟨c₁', levels₁, levels₁', hinput', hbecomes.represents, hbecomes'.represents, ?_, ?_⟩
  · rw [hbecomes.book_eq]
    exact hrests
  · rw [hbecomes'.book_eq, hbecomes.book_eq]

/-- **A run**, where each input leaves behind what the next one starts from. -/
theorem run_of_steps {P : Clob → List InputEvent → Prop}
    (hstep : ∀ {c c' levels levels' event events}, Without T o c c' levels levels' →
      (∀ e ∈ event :: events, e.Fits T) → P c (event :: events) →
      ∃ c₁ c₁' levels₁ levels₁' emitted, c.onInput T event = .ok (c₁, emitted) ∧
        c'.onInput T event = .ok (c₁', emitted) ∧ Without T o c₁ c₁' levels₁ levels₁' ∧ P c₁ events)
    (h : Without T o c c' levels levels') {events : List InputEvent} (hfits : ∀ e ∈ events, e.Fits T)
    (hP : P c events) :
    ∃ c₁ c₁' levels₁ levels₁' emitted, c.run T events = .ok (c₁, emitted) ∧
      c'.run T events = .ok (c₁', emitted) ∧ Without T o c₁ c₁' levels₁ levels₁' := by
  induction events generalizing c c' levels levels' with
  | nil => exact ⟨c, c', levels, levels', [], rfl, rfl, h⟩
  | cons event events ih =>
    obtain ⟨c₁, c₁', levels₁, levels₁', emitted, hinput, hinput', h₁, hP₁⟩ :=
      hstep h hfits hP
    obtain ⟨c₂, c₂', levels₂, levels₂', later, hrun, hrun', h₂⟩ :=
      ih h₁ (fun e he => hfits e (List.mem_cons_of_mem _ he)) hP₁
    refine ⟨c₂, c₂', levels₂, levels₂', emitted ++ later, ?_, ?_, h₂⟩
    · simp only [Clob.run, hinput, ok_bind, hrun]
      rfl
    · simp only [Clob.run, hinput', ok_bind, hrun']
      rfl

/-- **A run that takes nothing from the order.** -/
theorem run (h : Without T o c c' levels levels') {events : List InputEvent} (hfits : ∀ e ∈ events, e.Fits T)
    (hne : ∀ e ∈ events, e.orderId? ≠ some o.orderId) (hroom : RoomToProbe T c events)
    {c₁ : Clob} {emitted : List OutputEvent} (hrun : c.run T events = .ok (c₁, emitted))
    (huntouched : ∀ trade ∈ trades emitted, trade.restingOrderId ≠ o.orderId) :
    ∃ c₁' levels₁ levels₁', c'.run T events = .ok (c₁', emitted) ∧ Without T o c₁ c₁' levels₁ levels₁' := by
  obtain ⟨c₂, c₂', levels₂, levels₂', emitted₂, hrun₂, hrun₂', hwithout⟩ := h.run_of_steps
    (P := fun c events => (∀ e ∈ events, e.orderId? ≠ some o.orderId) ∧ RoomToProbe T c events ∧
      ∀ c₁ emitted, c.run T events = .ok (c₁, emitted) →
        ∀ trade ∈ trades emitted, trade.restingOrderId ≠ o.orderId)
    (by
      intro c c' levels levels' event events h hfits hP
      obtain ⟨hne, hroom, huntouched⟩ := hP
      obtain ⟨hevent, hevents⟩ := List.forall_mem_cons.mp hfits
      obtain ⟨c₂, levels₂, hanswer, hbecomes⟩ := h.left.onInput hevent
      obtain ⟨first, hinput⟩ : ∃ first, c.onInput T event = .ok (c₂, first) := ⟨_, hanswer⟩
      obtain ⟨c₃, later, -, hlater, -⟩ := hbecomes.represents.run events hevents
      -- what the input emits is in front of what the others emit
      have hgo : ∀ {c₃ later}, c₂.run T events = .ok (c₃, later) →
          c.run T (event :: events) = .ok (c₃, first ++ later) := by
        intro c₃ later hlater
        simp only [Clob.run, hinput, ok_bind, hlater]
        rfl
      obtain ⟨c₂', levels₃, levels₃', hinput', hwithout⟩ := h.onInput hevent
        (hne event (List.mem_cons_self ..))
        (fun fok hevent hfok => hroom [] fok events (hevent ▸ rfl) hfok c [] rfl) hinput
        fun trade htrade => huntouched c₃ _ (hgo hlater) trade
          (trades_append .. ▸ List.mem_append_left _ htrade)
      exact ⟨c₂, c₂', levels₃, levels₃', first, hinput, hinput', hwithout,
        fun e he => hne e (List.mem_cons_of_mem _ he), hroom.tail hinput,
        fun c₃ later hlater trade htrade => huntouched c₃ _ (hgo hlater) trade
          (trades_append .. ▸ List.mem_append_right _ htrade)⟩)
    hfits ⟨hne, hroom, fun _ _ hrun₂ => (ok_unique hrun hrun₂).2 ▸ huntouched⟩
  obtain ⟨rfl, rfl⟩ := ok_unique hrun hrun₂
  exact ⟨c₂', levels₂, levels₂', hrun₂', hwithout⟩

/-- The cancel takes the difference away. -/
theorem cancel (h : Without T o c c' levels levels') (hfits : T.Fits o.orderId) :
    ∃ c₁ levels₁, c.onInput T (.cancelOrder ⟨o.orderId⟩)
        = .ok (c₁, [.orderCancelled ⟨o.orderId, 0, o.quantity, .userRequest⟩]) ∧
      Represents T c₁ levels₁ ∧ bookOf levels₁ = bookOf levels' := by
  have hcancel : (InputEvent.cancelOrder ⟨o.orderId⟩).Fits T := hfits
  obtain ⟨c₁, levels₁, hinput, hbecomes⟩ := h.left.onInput hcancel
  obtain ⟨side, hside⟩ := mem_orders.mp h.rests
  have hid := h.left.valid.orderId_pos side o hside
  have hfind := h.left.valid.find?_eq_some_iff.mpr ⟨h.rests, rfl⟩
  have hstep : (bookOf levels).onInput (c.probe T (.cancelOrder ⟨o.orderId⟩)) (.cancelOrder ⟨o.orderId⟩)
      = (bookOf levels', [.orderCancelled ⟨o.orderId, 0, o.quantity, .userRequest⟩]) := by
    simp only [PriorityBook.onInput, onCancelOrder, if_neg (not_le.mpr hid), hfind, h.book_eq]
  rw [hstep] at hinput hbecomes
  exact ⟨c₁, levels₁, hinput, hbecomes.represents, hbecomes.book_eq⟩

end Without

/-- An add that rests in full makes the difference of its order. -/
theorem Represents.without (h : Represents T c levels) {add : AddOrderEvent}
    (hfits : (InputEvent.addOrder add).Fits T) (hadd : RestsInFull c add) :
    ∃ c₁ levels₁, c.onInput T (.addOrder add) = .ok (c₁, [.orderResting ⟨add.orderId, 0, add.quantity⟩]) ∧
      Without T ⟨add.orderId, add.side, add.price, add.quantity⟩ c₁ c levels₁ levels := by
  obtain ⟨haccepted, hgtc, hfresh, hclear⟩ := hadd
  rw [h.makers_eq] at hclear
  rw [h.fresh_iff] at hfresh
  obtain ⟨c₁, levels₁, hinput, hbecomes⟩ := h.onInput hfits
  rw [onInput_of_clear h.valid haccepted hgtc hfresh hclear] at hinput hbecomes
  refine ⟨c₁, levels₁, hinput, hbecomes.represents, h, ?_, ?_⟩
  · rw [hbecomes.book_eq]
    exact (rest_orders_perm ..).mem_iff.mpr (List.mem_cons_self ..)
  · rw [hbecomes.book_eq]
    exact (withdraw_rest_self hfresh).symm

/-- **An order that never trades may as well not have been there.** A valid GTC add that rests in full, any
inputs that do not name its id and trade without it, and its cancel: everybody else is answered, then and
afterwards, as if neither add nor cancel had come, and the book is the same in the end. Where a fill-or-kill
order arrives meanwhile, the opposite side is to sum to a value of the type. -/
theorem run_untouched (events between after : List InputEvent) (add : AddOrderEvent)
    (hfits : ∀ e ∈ events ++ .addOrder add :: (between ++ after), e.Fits T) {c₂ : Clob}
    {emitted emittedBetween : List OutputEvent} (hrun : Clob.run T {} events = .ok (c, emitted))
    (hadd : RestsInFull c add)
    (hbetween : Clob.run T {} (events ++ .addOrder add :: between)
      = .ok (c₂, emitted ++ .orderResting ⟨add.orderId, 0, add.quantity⟩ :: emittedBetween))
    (hne : ∀ e ∈ between, e.orderId? ≠ some add.orderId)
    (huntouched : ∀ trade ∈ trades emittedBetween, trade.restingOrderId ≠ add.orderId)
    (hroom : ∀ before fok rest, between = before ++ .addOrder fok :: rest → fok.tif = .fok →
      ∀ c' emitted', Clob.run T {} (events ++ .addOrder add :: before) = .ok (c', emitted') →
        T.Fits (total (c'.restingOrders fok.side.opposite))) :
    ∃ c₃ c₃' later,
      Clob.run T {} (events ++ .addOrder add :: (between ++ .cancelOrder ⟨add.orderId⟩ :: after))
        = .ok (c₃, emitted ++ .orderResting ⟨add.orderId, 0, add.quantity⟩
          :: (emittedBetween ++ .orderCancelled ⟨add.orderId, 0, add.quantity, .userRequest⟩ :: later)) ∧
      Clob.run T {} (events ++ (between ++ after)) = .ok (c₃', emitted ++ (emittedBetween ++ later)) ∧
      c₃.view = c₃'.view := by
  obtain ⟨hevents, hrest⟩ := List.forall_mem_append.mp hfits
  obtain ⟨haddFits, hrest⟩ := List.forall_mem_cons.mp hrest
  obtain ⟨hbetweenFits, hafter⟩ := List.forall_mem_append.mp hrest
  obtain ⟨c₀, emitted₀, levels, hrun₀, hc⟩ := run_represents events hevents
  obtain ⟨rfl, rfl⟩ := ok_unique hrun hrun₀
  obtain ⟨c₁, levels₁, hadded, hwithout⟩ := hc.without haddFits hadd
  have hgo : ∀ {more c' later}, c₁.run T more = .ok (c', later) →
      Clob.run T {} (events ++ .addOrder add :: more)
        = .ok (c', emitted ++ .orderResting ⟨add.orderId, 0, add.quantity⟩ :: later) := by
    intro more c' later hmore
    simp only [Clob.run_append, hrun, ok_bind, Clob.run, hadded, hmore]
    rfl
  obtain ⟨c₂₀, emitted₂₀, -, hbetween₀, -⟩ := hwithout.left.run between hbetweenFits
  obtain ⟨rfl, hemitted⟩ := ok_unique hbetween (hgo hbetween₀)
  obtain rfl := (List.cons.inj (List.append_cancel_left hemitted)).2
  have hprobes : RoomToProbe T c₁ between := fun before fok rest hsplit hfok c' emitted' hbefore =>
    hroom before fok rest hsplit hfok c' _ (hgo hbefore)
  obtain ⟨c₂', levels₂, levels₂', hbetween', hwithout₂⟩ :=
    hwithout.run hbetweenFits hne hprobes hbetween₀ huntouched
  obtain ⟨c₂₁, levels₂₁, hcancel, hc₂₁, hbook⟩ := hwithout₂.cancel haddFits.1
  obtain ⟨c₃, c₃', later, hlater, hlater', hview⟩ := hc₂₁.run_congr hwithout₂.right hbook hafter
  refine ⟨c₃, c₃', later, hgo ?_, ?_, hview⟩
  · simp only [Clob.run_append, ok_bind, Clob.run, hbetween₀, hcancel, hlater]
    rfl
  · simp only [Clob.run_append, hrun, ok_bind, hbetween', hlater']
    rfl

/-- A run whose events have been computed. -/
theorem Clob.exists_run {events : List InputEvent} {emitted : List OutputEvent}
    (h : (c.run T events).map Prod.snd = .ok emitted) : ∃ c', c.run T events = .ok (c', emitted) := by
  cases hrun : c.run T events with
  | error fault =>
    rw [hrun] at h
    cases h
  | ok r =>
    rw [hrun] at h
    cases h
    exact ⟨r.1, rfl⟩

/-- A fill-or-kill order fills from the offer in front of one at a price that it would pay too. -/
theorem run_untouched_behind :
    ∃ c₃ c₃' later,
      Clob.run .int64 {} [.addOrder ⟨1, .sell, 5, 100, .gtc⟩, .addOrder ⟨2, .sell, 7, 101, .gtc⟩,
          .addOrder ⟨3, .buy, 5, 101, .fok⟩, .cancelOrder ⟨2⟩, .addOrder ⟨4, .buy, 7, 101, .ioc⟩]
        = .ok (c₃, .orderResting ⟨1, 0, 5⟩ :: .orderResting ⟨2, 0, 7⟩ :: .trade ⟨3, 1, 5⟩
          :: .orderFilled ⟨1, 5⟩ :: .orderFilled ⟨3, 5⟩ :: .orderCancelled ⟨2, 0, 7, .userRequest⟩ :: later) ∧
      Clob.run .int64 {} [.addOrder ⟨1, .sell, 5, 100, .gtc⟩, .addOrder ⟨3, .buy, 5, 101, .fok⟩,
          .addOrder ⟨4, .buy, 7, 101, .ioc⟩]
        = .ok (c₃', .orderResting ⟨1, 0, 5⟩ :: .trade ⟨3, 1, 5⟩ :: .orderFilled ⟨1, 5⟩ :: .orderFilled ⟨3, 5⟩
          :: later) ∧
      c₃.view = c₃'.view := by
  have hsum : (Clob.run .int64 {} [.addOrder ⟨1, .sell, 5, 100, .gtc⟩, .addOrder ⟨2, .sell, 7, 101, .gtc⟩]).map
      (fun r => total (r.1.restingOrders .sell)) = .ok 12 := by decide +kernel
  obtain ⟨c₂, hbetween⟩ : ∃ c₂, Clob.run .int64 {} [.addOrder ⟨1, .sell, 5, 100, .gtc⟩,
      .addOrder ⟨2, .sell, 7, 101, .gtc⟩, .addOrder ⟨3, .buy, 5, 101, .fok⟩]
        = .ok (c₂, [.orderResting ⟨1, 0, 5⟩, .orderResting ⟨2, 0, 7⟩, .trade ⟨3, 1, 5⟩, .orderFilled ⟨1, 5⟩,
          .orderFilled ⟨3, 5⟩]) := Clob.exists_run (by decide +kernel)
  refine run_untouched [.addOrder ⟨1, .sell, 5, 100, .gtc⟩] [.addOrder ⟨3, .buy, 5, 101, .fok⟩]
    [.addOrder ⟨4, .buy, 7, 101, .ioc⟩] ⟨2, .sell, 7, 101, .gtc⟩ (by decide +kernel) rfl (by decide +kernel)
    hbetween (by decide) (by decide) ?_
  intro before fok rest hsplit hfok c' emitted' hbefore
  cases before with
  | nil =>
    cases hsplit
    change Clob.run .int64 {} [.addOrder ⟨1, .sell, 5, 100, .gtc⟩, .addOrder ⟨2, .sell, 7, 101, .gtc⟩]
      = .ok (c', emitted') at hbefore
    rw [hbefore] at hsum
    have htotal : total (c'.restingOrders .sell) = 12 := Except.ok.inj hsum
    change SignedInt.int64.Fits (total (c'.restingOrders .sell))
    rw [htotal]
    decide
  | cons event before => cases before <;> cases hsplit

end MatchingEngine
