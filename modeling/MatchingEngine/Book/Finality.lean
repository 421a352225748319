import MatchingEngine.Book.Replay

/-!
# What has ended stays ended

An order ends by a FIL or a CAN, or by the rejection of its add. Over a run in which no two adds share
an id, an id that has ended is out of the book, no input brings it back, and no event names it again;
a cancel of it finds nothing. An id that has come to rest and has not ended is in the book, and a
cancel of it reports what is left of it.
-/

namespace MatchingEngine

open Divisible PriorityBook

/-- The id has traded, rests, is filled or is cancelled. -/
def OutputEvent.Names (orderId : Int) : OutputEvent → Prop
  | .trade event => event.aggressiveOrderId = orderId ∨ event.restingOrderId = orderId
  | .orderResting event => event.orderId = orderId
  | .orderFilled event => event.orderId = orderId
  | .orderCancelled event => event.orderId = orderId
  | _ => False

def OutputEvent.Closes (orderId : Int) : OutputEvent → Prop
  | .orderFilled event => event.orderId = orderId
  | .orderCancelled event => event.orderId = orderId
  | _ => False

/-- An event that is emitted for this input ends the order: a FIL, a CAN, or a rejection of its add. -/
def OutputEvent.Ends (orderId : Int) (event : InputEvent) (e : OutputEvent) : Prop :=
  e.Closes orderId ∨ event.addId? = some orderId ∧ ∃ rejectCode, e = .orderRejected ⟨orderId, rejectCode⟩

theorem OutputEvent.Closes.names {orderId : Int} {e : OutputEvent} (h : e.Closes orderId) :
    e.Names orderId := by
  cases e <;> first | exact h | exact h.elim

/-! ### Fills -/

section Fills

variable {taker q orderId : Int} {os : List RestingOrder} {e : OutputEvent}

theorem fillEvents_cons (hq : 0 < q) (o : RestingOrder) :
    fillEvents taker q (o :: os)
      = takeEvents taker (o, min q o.quantity) ++ fillEvents taker (q - o.quantity) os := by
  rw [fillEvents, takes, if_pos hq, List.flatMap_cons]
  rfl

theorem fillEvents_of_nonpos (hq : q ≤ 0) (os : List RestingOrder) : fillEvents taker q os = [] := by
  rw [fillEvents, takes_of_nonpos hq, List.flatMap_nil]

theorem names_takeEvents {take : RestingOrder × Int} (he : e ∈ takeEvents taker take)
    (hnames : e.Names orderId) : orderId = taker ∨ orderId = take.1.orderId := by
  rcases List.mem_cons.mp he with rfl | he
  · exact hnames.imp Eq.symm Eq.symm
  · right
    rw [List.mem_singleton.mp he] at hnames
    split at hnames
    · exact hnames.symm
    · exact hnames.symm

theorem names_fillEvents (he : e ∈ fillEvents taker q os) (hnames : e.Names orderId) :
    orderId = taker ∨ orderId ∈ os.map RestingOrder.orderId := by
  obtain ⟨take, htake, he⟩ := List.mem_flatMap.mp he
  refine (names_takeEvents he hnames).imp_right ?_
  rintro rfl
  have hmaker := (takes_in_order q os).subset (List.mem_map_of_mem htake)
  exact List.mem_map_of_mem hmaker

/-- A maker is closed when it is filled, and is not heard of again. -/
theorem closes_fillEvents (hnodup : (os.map RestingOrder.orderId).Nodup)
    (htaker : taker ∉ os.map RestingOrder.orderId) {xs ys : List OutputEvent}
    (hsplit : fillEvents taker q os = xs ++ e :: ys) (hcloses : e.Closes orderId) :
    (∀ later ∈ ys, ¬ later.Names orderId) ∧ orderId ∈ os.map RestingOrder.orderId ∧
      orderId ∉ (left q os).map RestingOrder.orderId := by
  induction os generalizing q xs with
  | nil => simp [fillEvents, takes] at hsplit
  | cons o os ih =>
    rw [List.map_cons, List.nodup_cons] at hnodup
    rw [List.map_cons, List.mem_cons, not_or] at htaker
    by_cases hq : q ≤ 0
    · simp [fillEvents_of_nonpos hq] at hsplit
    rw [fillEvents_cons (by omega)] at hsplit
    by_cases hpart : q < o.quantity
    · -- this maker is not closed, and it is the last
      rw [fillEvents_of_nonpos (by omega), List.append_nil, min_eq_left hpart.le] at hsplit
      have hmem : e ∈ takeEvents taker (o, q) := hsplit ▸ List.mem_append_right _ (List.mem_cons_self ..)
      rcases List.mem_cons.mp hmem with rfl | hmem
      · exact hcloses.elim
      · rw [List.mem_singleton.mp hmem, if_neg hpart.ne] at hcloses
        exact hcloses.elim
    · have hleft : left q (o :: os) = left (q - o.quantity) os := by
        rw [left, if_neg hq, amount_restingOrder, if_neg hpart]
      have hevents : takeEvents taker (o, min q o.quantity)
          = [.trade ⟨taker, o.orderId, o.quantity⟩, .orderFilled ⟨o.orderId, o.quantity⟩] := by
        rw [min_eq_right (by omega), takeEvents, if_pos rfl]
      rw [hevents] at hsplit
      rw [hleft, List.map_cons, List.mem_cons]
      rcases xs with _ | ⟨x, _ | ⟨y, xs⟩⟩
      · obtain ⟨rfl, -⟩ := List.cons.inj hsplit
        exact hcloses.elim
      · -- the FIL of this maker
        obtain ⟨-, hsplit⟩ := List.cons.inj hsplit
        obtain ⟨rfl, rfl⟩ := List.cons.inj hsplit
        obtain rfl : o.orderId = orderId := hcloses
        refine ⟨?_, Or.inl rfl, ?_⟩
        · intro later hlater hnames
          rcases names_fillEvents hlater hnames with heq | hmem
          · exact htaker.1 heq.symm
          · exact hnodup.1 hmem
        · intro hmem
          exact hnodup.1 ((map_left_suffix (fun _ _ => rfl) _ os).subset hmem)
      · obtain ⟨-, hsplit⟩ := List.cons.inj hsplit
        obtain ⟨-, hsplit⟩ := List.cons.inj hsplit
        obtain ⟨hlater, hmem, hout⟩ := ih hnodup.2 htaker.2 hsplit
        exact ⟨hlater, Or.inr hmem, hout⟩

end Fills

/-! ### One input -/

/-- Whatever of these events ends an order is the last that names it, and the order is out of the book. -/
def Finalises (orderId : Int) (event : InputEvent) (b : PriorityBook) (emitted : List OutputEvent) :
    Prop :=
  ∀ xs e ys, emitted = xs ++ e :: ys → e.Ends orderId event →
    (∀ later ∈ ys, ¬ later.Names orderId) ∧ orderId ∉ b.orders.map RestingOrder.orderId

section Step

variable {b : PriorityBook} {orderId : Int}

/-- A single event, or one behind fills that are not of this order. -/
theorem finalises_singleton {event : InputEvent} {e : OutputEvent}
    (hout : e.Ends orderId event → orderId ∉ b.orders.map RestingOrder.orderId) :
    Finalises orderId event b [e] := by
  intro xs e' ys hsplit hends
  cases xs with
  | nil =>
    obtain ⟨rfl, rfl⟩ := List.cons.inj hsplit
    exact ⟨fun _ hmem => absurd hmem List.not_mem_nil, hout hends⟩
  | cons x xs => simp at hsplit

theorem finalises_fills (h : b.Valid) {event : AddOrderEvent} {b' : PriorityBook}
    {terminal : OutputEvent} (hfresh : event.orderId ∉ b.orders.map RestingOrder.orderId)
    (hterminal : ∀ id, terminal.Names id → id = event.orderId)
    (hout : terminal.Ends orderId (.addOrder event) → orderId ∉ b'.orders.map RestingOrder.orderId)
    (hbook : ∀ id ∈ b'.orders.map RestingOrder.orderId, id = event.orderId ∨
      id ∈ (b.sweep event.side event.price event.quantity).orders.map RestingOrder.orderId) :
    Finalises orderId (.addOrder event) b'
      (fillEvents event.orderId event.quantity (b.makers event.side event.price) ++ [terminal]) := by
  have hperm := b.orders_perm event.side.opposite
  rw [Side.opposite_opposite, ← h.makers_append_bystanders event.side event.price,
    List.append_assoc] at hperm
  have hids := hperm.map RestingOrder.orderId
  have hnodup := hids.nodup_iff.mp h.nodup
  rw [List.map_append, List.nodup_append] at hnodup
  have hmakers : (b.makers event.side event.price).map RestingOrder.orderId ⊆
      b.orders.map RestingOrder.orderId := fun id hid =>
    hids.mem_iff.mpr (by rw [List.map_append]; exact List.mem_append_left _ hid)
  intro xs e ys hsplit hends
  rcases List.eq_nil_or_concat ys with rfl | ⟨ys, y, rfl⟩
  · obtain ⟨rfl, rfl⟩ := List.append_singleton_inj.mp hsplit
    exact ⟨fun _ hmem => absurd hmem List.not_mem_nil, hout hends⟩
  · -- a maker is filled
    have hsplit' : fillEvents event.orderId event.quantity (b.makers event.side event.price)
        ++ [terminal] = (xs ++ e :: ys) ++ [y] := by
      rw [hsplit]
      simp
    obtain ⟨hfills, rfl⟩ := List.append_singleton_inj.mp hsplit'
    have hcloses : e.Closes orderId := by
      refine hends.resolve_right ?_
      rintro ⟨-, rejectCode, rfl⟩
      have hmem : OutputEvent.orderRejected ⟨orderId, rejectCode⟩ ∈
          fillEvents event.orderId event.quantity (b.makers event.side event.price) :=
        hfills ▸ List.mem_append_right _ (List.mem_cons_self ..)
      exact orderRejected_not_mem_fillEvents _ hmem
    obtain ⟨hlater, hmaker, hleft⟩ := closes_fillEvents hnodup.1
      (fun hmem => hfresh (hmakers hmem)) hfills hcloses
    have hne : orderId ≠ event.orderId := fun heq => hfresh (heq ▸ hmakers hmaker)
    refine ⟨?_, ?_⟩
    · intro later hmem hnames
      rw [List.concat_eq_append] at hmem
      rcases List.mem_append.mp hmem with hmem | hmem
      · exact hlater later hmem hnames
      · rw [List.mem_singleton.mp hmem] at hnames
        exact hne (hterminal orderId hnames)
    · intro hmem
      have hswept := (b.sweep event.side event.price event.quantity).orders_perm event.side.opposite
      rw [Side.opposite_opposite, sweep_opposite, sweep_same, List.append_assoc] at hswept
      have hin := (hswept.map RestingOrder.orderId).mem_iff.mp ((hbook orderId hmem).resolve_left hne)
      rw [List.map_append, List.mem_append] at hin
      exact hnodup.2.2 _ hmaker _ (hin.resolve_left hleft) rfl

theorem finalises_addOrder (h : b.Valid) (fillable : Bool) {event : AddOrderEvent}
    (hfresh : event.orderId ∉ b.orders.map RestingOrder.orderId) :
    Finalises orderId (.addOrder event) (b.addOrder fillable event).1
      (b.addOrder fillable event).2 := by
  have hfreshSwept : event.orderId ∉ (b.sweep event.side event.price event.quantity).orders.map
      RestingOrder.orderId :=
    fun hmem => hfresh (sweep_orderIds_subset h _ _ _ hmem)
  apply addOrder_cases (P := fun b' emitted => Finalises orderId (.addOrder event) b' emitted)
  · intro _ _
    apply finalises_singleton
    rintro (rfl | ⟨-, _, heq⟩)
    · exact hfresh
    · cases heq
  · intro _
    apply finalises_fills h hfresh
    · exact fun _ => Eq.symm
    · rintro (rfl | ⟨-, _, heq⟩)
      · exact hfreshSwept
      · cases heq
    · exact fun _ => Or.inr
  · intro _ _ hdup
    exact absurd hdup hfreshSwept
  · intro _ _ _
    apply finalises_fills h hfresh
    · exact fun _ => Eq.symm
    · rintro (hcloses | ⟨-, _, heq⟩)
      · exact hcloses.elim
      · cases heq
    · intro id hid
      rwa [((rest_orders_perm ..).map _).mem_iff, List.map_cons, List.mem_cons] at hid
  · intro cause _ _
    apply finalises_fills h hfresh
    · exact fun _ => Eq.symm
    · rintro (rfl | ⟨-, _, heq⟩)
      · exact hfreshSwept
      · cases heq
    · exact fun _ => Or.inr

/-- **One input.** -/
theorem finalises_onInput (h : b.Valid) (fillable : Bool) {event : InputEvent}
    (hfresh : ∀ add, event = .addOrder add → add.orderId ∉ b.orders.map RestingOrder.orderId) :
    Finalises orderId event (b.onInput fillable event).1 (b.onInput fillable event).2 := by
  cases event with
  | shutdown =>
    intro xs e ys hsplit
    simp [PriorityBook.onInput] at hsplit
  | addOrder event =>
    apply onAddOrder_cases (P := fun b' emitted => Finalises orderId (.addOrder event) b' emitted)
    · intro rejectCode _
      apply finalises_singleton
      rintro (hcloses | ⟨hid, -⟩)
      · exact hcloses.elim
      · obtain rfl : event.orderId = orderId := Option.some.inj hid
        exact hfresh event rfl
    · intro _
      exact finalises_addOrder h fillable (hfresh event rfl)
  | cancelOrder event =>
    apply onCancelOrder_cases
      (P := fun b' emitted => Finalises orderId (.cancelOrder event) b' emitted)
    · intro rejectCode
      apply finalises_singleton
      rintro (hcloses | ⟨hid, -⟩)
      · exact hcloses.elim
      · cases hid
    · intro o _ _
      apply finalises_singleton
      rintro (rfl | ⟨hid, -⟩)
      · simp [orders_withdraw]
      · cases hid

/-- The events name only what rests and what is added. -/
theorem names_onInput (fillable : Bool) {event : InputEvent} {e : OutputEvent}
    (he : e ∈ (b.onInput fillable event).2) (hnames : e.Names orderId) :
    orderId ∈ b.orders.map RestingOrder.orderId ++ event.addId?.toList := by
  have hmakers : ∀ side limit, (b.makers side limit).map RestingOrder.orderId ⊆
      b.orders.map RestingOrder.orderId := by
    intro side limit id hid
    obtain ⟨o, ho, rfl⟩ := List.mem_map.mp hid
    exact List.mem_map_of_mem (mem_orders.mpr ⟨side.opposite, List.mem_of_mem_filter ho⟩)
  cases event with
  | shutdown => exact absurd he List.not_mem_nil
  | addOrder event =>
    have hadd : orderId = event.orderId →
        orderId ∈ b.orders.map RestingOrder.orderId ++ (InputEvent.addOrder event).addId?.toList :=
      fun heq => List.mem_append_right _ (List.mem_singleton.mpr heq)
    -- behind the fills stands one event of the add itself
    have hfills : ∀ terminal : OutputEvent, (terminal.Names orderId → orderId = event.orderId) →
        e ∈ fillEvents event.orderId event.quantity (b.makers event.side event.price) ++ [terminal] →
        orderId ∈ b.orders.map RestingOrder.orderId ++ (InputEvent.addOrder event).addId?.toList := by
      intro terminal hterminal hmem
      rcases List.mem_append.mp hmem with hmem | hmem
      · rcases names_fillEvents hmem hnames with heq | hmaker
        · exact hadd heq
        · exact List.mem_append_left _ (hmakers _ _ hmaker)
      · rw [List.mem_singleton.mp hmem] at hnames
        exact hadd (hterminal hnames)
    have hsingle : ∀ terminal : OutputEvent, (terminal.Names orderId → orderId = event.orderId) →
        e ∈ [terminal] →
        orderId ∈ b.orders.map RestingOrder.orderId ++ (InputEvent.addOrder event).addId?.toList :=
      fun terminal hterminal hmem => hfills terminal hterminal (List.mem_append_right _ hmem)
    generalize b.orders.map RestingOrder.orderId ++ (InputEvent.addOrder event).addId?.toList
      = known at hadd hfills hsingle ⊢
    refine @onAddOrder_cases (fun _ emitted => e ∈ emitted → orderId ∈ known) b fillable event ?_ ?_ he
    · intro rejectCode _
      exact hsingle (.orderRejected ⟨event.orderId, rejectCode⟩) False.elim
    intro _
    apply addOrder_cases (P := fun _ emitted => e ∈ emitted → orderId ∈ known)
    · intro _ _
      apply hsingle
      exact Eq.symm
    · intro _
      apply hfills
      exact Eq.symm
    · intro _ _ _
      apply hfills
      exact False.elim
    · intro _ _ _
      apply hfills
      exact Eq.symm
    · intro _ _ _
      apply hfills
      exact Eq.symm
  | cancelOrder event =>
    refine @onCancelOrder_cases (fun _ emitted => e ∈ emitted → _) b event ?_ ?_ he
    · intro rejectCode hmem
      rw [List.mem_singleton.mp hmem] at hnames
      exact hnames.elim
    · intro o ho _ hmem
      rw [List.mem_singleton.mp hmem] at hnames
      exact List.mem_append_left _ (List.mem_map.mpr ⟨o, ho, hnames⟩)

end Step

/-! ### Runs -/

variable {T : SignedInt} {c : Clob} {levels : Side → List (List Slot)} {orderId : Int}

/-- No input brings back an id that has been added and is out of the book. -/
theorem Represents.run_over (h : Represents T c levels) {events more : List InputEvent}
    (hadded : orderId ∈ addIds events)
    (hout : orderId ∉ (bookOf levels).orders.map RestingOrder.orderId)
    (hfits : ∀ event ∈ more, event.Fits T) (hnodup : (addIds (events ++ more)).Nodup) :
    ∃ c' later levels', c.run T more = .ok (c', later) ∧ Represents T c' levels' ∧
      (∀ e ∈ later, ¬ e.Names orderId) ∧
      orderId ∉ (bookOf levels').orders.map RestingOrder.orderId := by
  induction more generalizing c levels events with
  | nil => exact ⟨c, [], levels, rfl, h, by simp, hout⟩
  | cons event more ih =>
    have hnot : orderId ∉ (bookOf levels).orders.map RestingOrder.orderId ++ event.addId?.toList := by
      rw [List.mem_append, not_or]
      refine ⟨hout, fun hmem => ?_⟩
      rw [addIds_append, List.nodup_append] at hnodup
      have hnew : orderId ∈ addIds (event :: more) := by
        rw [addIds_cons]
        exact List.mem_append_left _ hmem
      exact hnodup.2.2 _ hadded _ hnew rfl
    obtain ⟨c₁, levels₁, hinput, hbecomes⟩ := h.onInput (hfits event (List.mem_cons_self ..))
    have hout₁ : orderId ∉ (bookOf levels₁).orders.map RestingOrder.orderId := by
      rw [hbecomes.book_eq]
      exact fun hmem => hnot (orderIds_onInput h.valid _ event hmem)
    have hsplit : events ++ event :: more = (events ++ [event]) ++ more := by simp
    rw [hsplit] at hnodup
    obtain ⟨c₂, later, levels₂, hrun, hc₂, hsilent, hout₂⟩ := ih hbecomes.represents
      (by rw [addIds_append]; exact List.mem_append_left _ hadded) hout₁
      (fun e he => hfits e (List.mem_cons_of_mem _ he)) hnodup
    refine ⟨c₂, ((bookOf levels).onInput (c.probe T event) event).2 ++ later, levels₂, ?_, hc₂, ?_,
      hout₂⟩
    · simp only [Clob.run, hinput, ok_bind, hrun]
      rfl
    · intro e he hnames
      rcases List.mem_append.mp he with he | he
      · exact hnot (names_onInput _ he hnames)
      · exact hsilent e he hnames

/-- A cancel of an id that does not rest finds nothing. -/
theorem Represents.cancel_absent (h : Represents T c levels) (hid : 0 < orderId)
    (hout : orderId ∉ (bookOf levels).orders.map RestingOrder.orderId) :
    c.onInput T (.cancelOrder ⟨orderId⟩) = .ok (c, [.orderRejected ⟨orderId, .unknownOrderId⟩]) := by
  have hlookup : c.lookup orderId = none := by
    rw [← Option.not_isSome_iff_eq_none, h.lookup_isSome_iff]
    exact hout
  simp only [Clob.onInput, Clob.onCancelOrder, not_le.mpr hid, if_false, hlookup]
  rfl

theorem Represents.cancel_present (h : Represents T c levels) (hid : 0 < orderId)
    (hfits : T.Fits orderId) {o : RestingOrder} (ho : o ∈ (bookOf levels).orders)
    (hoid : o.orderId = orderId) :
    ∃ c', c.onInput T (.cancelOrder ⟨orderId⟩)
      = .ok (c', [.orderCancelled ⟨orderId, 0, o.quantity, .userRequest⟩]) := by
  have hcancel : (InputEvent.cancelOrder ⟨orderId⟩).Fits T := hfits
  obtain ⟨c', levels', hinput, -⟩ := h.onInput hcancel
  have hfind := h.valid.find?_eq_some_iff.mpr ⟨ho, hoid⟩
  refine ⟨c', ?_⟩
  rw [hinput]
  simp only [PriorityBook.onInput, PriorityBook.onCancelOrder, not_le.mpr hid, if_false, hfind]

/-- What the map holds, it holds until a FIL or a CAN. -/
theorem isSome_replay {m : Holdings} {emitted : List OutputEvent} (hsome : (m orderId).isSome)
    (hopen : ∀ e ∈ emitted, ¬ e.Closes orderId) : (replay m emitted orderId).isSome := by
  induction emitted generalizing m with
  | nil => exact hsome
  | cons e emitted ih =>
    apply ih _ fun later hlater => hopen later (List.mem_cons_of_mem _ hlater)
    have hnot := hopen e (List.mem_cons_self ..)
    cases e with
    | orderResting event =>
      by_cases heq : orderId = event.orderId
      · simp [OutputEvent.apply, heq]
      · simpa [OutputEvent.apply, Function.update_of_ne heq] using hsome
    | orderFilled event =>
      have hne : orderId ≠ event.orderId := fun heq => hnot heq.symm
      simpa [OutputEvent.apply, Function.update_of_ne hne] using hsome
    | orderCancelled event =>
      have hne : orderId ≠ event.orderId := fun heq => hnot heq.symm
      rw [OutputEvent.apply]
      split
      · rwa [Function.update_of_ne hne]
      · exact hsome
    | _ => exact hsome

theorem fits_of_mem_addIds {events : List InputEvent} (hfits : ∀ event ∈ events, event.Fits T)
    (hmem : orderId ∈ addIds events) : T.Fits orderId := by
  obtain ⟨event, hevent, hid⟩ := List.mem_filterMap.mp hmem
  have hevent := hfits event hevent
  cases event with
  | addOrder event =>
    obtain rfl : event.orderId = orderId := Option.some.inj hid
    exact hevent.1
  | cancelOrder event => cases hid
  | shutdown => cases hid

/-- A book is read off in one way. -/
theorem Represents.bookOf_unique {levels' : Side → List (List Slot)} (h : Represents T c levels)
    (h' : Represents T c levels') : bookOf levels = bookOf levels' := by
  funext side
  rw [← h.restingOrders_eq side, h'.restingOrders_eq side]

/-- What the events of a run close has been added and is not in the book. -/
theorem run_closed (events : List InputEvent) (hfits : ∀ event ∈ events, event.Fits T) :
    ∃ c emitted levels, Clob.run T {} events = .ok (c, emitted) ∧ Represents T c levels ∧
      ((addIds events).Nodup → (bookOf levels).orders.map RestingOrder.orderId ⊆ addIds events ∧
        ∀ e ∈ emitted, ∀ id, e.Closes id →
          id ∈ addIds events ∧ id ∉ (bookOf levels).orders.map RestingOrder.orderId) := by
  apply run_induction
    (P := fun events emitted _ levels => (addIds events).Nodup →
      (bookOf levels).orders.map RestingOrder.orderId ⊆ addIds events ∧
        ∀ e ∈ emitted, ∀ id, e.Closes id →
          id ∈ addIds events ∧ id ∉ (bookOf levels).orders.map RestingOrder.orderId) _ _ events hfits
  · simp [PriorityBook.orders, bookOf, ordersOf]
  intro events emitted c levels event c' levels' hc hclosed _ hbecomes hnodup
  rw [addIds_append, addIds_singleton] at hnodup ⊢
  simp only [hbecomes.book_eq]
  obtain ⟨hbefore, -, hnew⟩ := List.nodup_append.mp hnodup
  obtain ⟨hadded, hclosed⟩ := hclosed hbefore
  have hids := orderIds_onInput hc.valid (c.probe T event) event
  have hfresh : ∀ add, event = .addOrder add →
      add.orderId ∉ (bookOf levels).orders.map RestingOrder.orderId := by
    intro add heq hmem
    subst heq
    exact hnew _ (hadded hmem) _ (List.mem_singleton_self _) rfl
  refine ⟨?_, ?_⟩
  · intro id hid
    exact List.mem_append.mpr ((List.mem_append.mp (hids hid)).imp_left (hadded ·))
  · intro e he id hcloses
    rcases List.mem_append.mp he with he | he
    · obtain ⟨hmem, hout⟩ := hclosed e he id hcloses
      refine ⟨List.mem_append_left _ hmem, fun hin => ?_⟩
      rcases List.mem_append.mp (hids hin) with hold | hadd
      · exact hout hold
      · exact hnew _ hmem _ hadd rfl
    · have hnamed := names_onInput _ he hcloses.names
      obtain ⟨xs, ys, hsplit⟩ := List.append_of_mem he
      refine ⟨List.mem_append.mpr ((List.mem_append.mp hnamed).imp_left (hadded ·)), ?_⟩
      exact (finalises_onInput hc.valid _ hfresh xs e ys hsplit (Or.inl hcloses)).2

section Whole

variable {events : List InputEvent} {emitted : List OutputEvent}

/-- An id that has come to rest is in the book until an event closes it. -/
theorem rests_of_open (hrun : Clob.run T {} events = .ok (c, emitted)) (hc : Represents T c levels)
    (hfits : ∀ event ∈ events, event.Fits T) (hnodup : (addIds events).Nodup)
    {xs ys : List OutputEvent} {rests : OrderRestingEvent}
    (hemitted : emitted = xs ++ .orderResting rests :: ys)
    (hopen : ∀ e ∈ ys, ¬ e.Closes rests.orderId) :
    ∃ o ∈ (bookOf levels).orders, o.orderId = rests.orderId := by
  obtain ⟨c', emitted', levels', hrun', hc', htracks⟩ := tracks_of_noReuse events hfits
    (noReuse_of_nodup hfits hnodup)
  obtain ⟨rfl, rfl⟩ := ok_unique hrun hrun'
  rw [hc.bookOf_unique hc']
  -- the map that the events build holds the id from the RST on
  have hsome : (replay (replay (fun _ => none) xs) (.orderResting rests :: ys)
      rests.orderId).isSome := by
    rw [replay, List.foldl_cons]
    apply isSome_replay
    · rw [OutputEvent.apply, Function.update_self]
      rfl
    · exact hopen
  rw [← replay_append, ← hemitted] at hsome
  obtain ⟨q, hq⟩ := Option.isSome_iff_exists.mp hsome
  obtain ⟨o, ho, hoid, -⟩ := (htracks _ _).mp hq
  exact ⟨o, ho, hoid⟩

theorem absent_of_closed (hrun : Clob.run T {} events = .ok (c, emitted)) (hc : Represents T c levels)
    (hfits : ∀ event ∈ events, event.Fits T) (hnodup : (addIds events).Nodup) {e : OutputEvent}
    (he : e ∈ emitted) (hcloses : e.Closes orderId) :
    orderId ∉ (bookOf levels).orders.map RestingOrder.orderId := by
  obtain ⟨c', emitted', levels', hrun', hc', hclosed⟩ := run_closed events hfits
  obtain ⟨rfl, rfl⟩ := ok_unique hrun hrun'
  rw [hc.bookOf_unique hc']
  exact ((hclosed hnodup).2 e he orderId hcloses).2

end Whole

/-- **What has ended stays ended.** In a run whose adds have distinct positive ids: behind an event that
ends an order nothing names its id, and a cancel of it is answered with UNK; an add that has come to
rest and that nothing has ended is answered with what is left of it. -/
theorem run_final (before after : List InputEvent) (event : InputEvent)
    (hfits : ∀ e ∈ before ++ event :: after, e.Fits T)
    (hnodup : (addIds (before ++ event :: after)).Nodup)
    (hpos : ∀ id ∈ addIds (before ++ event :: after), 0 < id) :
    ∃ c₀ emitted₀ c₁ emitted₁ c₂ emitted₂,
      Clob.run T {} before = .ok (c₀, emitted₀) ∧ c₀.onInput T event = .ok (c₁, emitted₁) ∧
      c₁.run T after = .ok (c₂, emitted₂) ∧
      (∀ orderId xs e ys, emitted₁ = xs ++ e :: ys → e.Ends orderId event →
        (∀ later ∈ ys ++ emitted₂, ¬ later.Names orderId) ∧
        c₂.onInput T (.cancelOrder ⟨orderId⟩)
          = .ok (c₂, [.orderRejected ⟨orderId, .unknownOrderId⟩])) ∧
      ∀ add, event = .addOrder add →
        (∃ rests, .orderResting rests ∈ emitted₁ ∧ rests.orderId = add.orderId) →
        (∀ e ∈ emitted₁ ++ emitted₂, ¬ e.Closes add.orderId) →
        ∃ c₃, ∃ o ∈ c₂.restingOrders .buy ++ c₂.restingOrders .sell, o.orderId = add.orderId ∧
          c₂.onInput T (.cancelOrder ⟨add.orderId⟩)
            = .ok (c₃, [.orderCancelled ⟨add.orderId, 0, o.quantity, .userRequest⟩]) := by
  have hsplit : before ++ event :: after = (before ++ [event]) ++ after := by simp
  have hfitsBefore : ∀ e ∈ before, e.Fits T := fun e he => hfits e (List.mem_append_left _ he)
  have hfitsAfter : ∀ e ∈ after, e.Fits T := fun e he =>
    hfits e (List.mem_append_right _ (List.mem_cons_of_mem _ he))
  obtain ⟨c₀, emitted₀, levels₀, hrun₀, hc₀, hadded₀⟩ := run_added before hfitsBefore
  obtain ⟨c₁, levels₁, hinput, hbecomes⟩ := hc₀.onInput
    (hfits event (List.mem_append_right _ (List.mem_cons_self ..)))
  obtain ⟨c₂, emitted₂, levels₂, hrun₂, hbecomes₂⟩ := hbecomes.represents.run after hfitsAfter
  have hc₂ := hbecomes₂.represents
  have hids : ∀ id, id ∈ (bookOf levels₀).orders.map RestingOrder.orderId ++ event.addId?.toList →
      id ∈ addIds (before ++ [event]) := by
    intro id hid
    rw [addIds_append, addIds_singleton]
    exact List.mem_append.mpr ((List.mem_append.mp hid).imp_left (hadded₀ ·))
  have hall : ∀ id ∈ addIds (before ++ [event]), id ∈ addIds (before ++ event :: after) := by
    intro id hid
    rw [hsplit, addIds_append]
    exact List.mem_append_left _ hid
  have hfresh : ∀ add, event = .addOrder add →
      add.orderId ∉ (bookOf levels₀).orders.map RestingOrder.orderId := by
    rintro add rfl hmem
    rw [addIds_append, List.nodup_append] at hnodup
    exact hnodup.2.2 _ (hadded₀ hmem) _ (List.mem_cons_self ..) rfl
  refine ⟨c₀, emitted₀, c₁, _, c₂, emitted₂, hrun₀, hinput, hrun₂, ?_, ?_⟩
  · intro orderId xs e ys hemitted hends
    obtain ⟨hlater, hout⟩ := finalises_onInput hc₀.valid _ hfresh xs e ys hemitted hends
    have hmem : orderId ∈ addIds (before ++ [event]) := by
      apply hids
      rcases hends with hcloses | ⟨hid, -⟩
      · exact names_onInput _ (hemitted ▸ List.mem_append_right _ (List.mem_cons_self ..)) hcloses.names
      · exact List.mem_append_right _ (by rw [hid]; exact List.mem_singleton_self _)
    rw [← hbecomes.book_eq] at hout
    obtain ⟨c₂', later, levels₂', hrun₂', hc₂', hsilent, hout₂⟩ := hbecomes.represents.run_over hmem
      hout hfitsAfter (by rwa [← hsplit])
    obtain ⟨rfl, rfl⟩ := ok_unique hrun₂ hrun₂'
    refine ⟨?_, hc₂'.cancel_absent (hpos orderId (hall orderId hmem)) hout₂⟩
    intro later hmem
    rcases List.mem_append.mp hmem with hmem | hmem
    · exact hlater later hmem
    · exact hsilent later hmem
  · rintro add rfl ⟨rests, hrests, hid⟩ hopen
    have hadd : add.orderId ∈ addIds (before ++ .addOrder add :: after) :=
      hall _ (hids _ (List.mem_append_right _ (List.mem_singleton_self _)))
    have hwhole : Clob.run T {} (before ++ .addOrder add :: after) = .ok (c₂, emitted₀ ++
        (((bookOf levels₀).onInput (c₀.probe T (.addOrder add)) (.addOrder add)).2 ++ emitted₂)) := by
      simp only [Clob.run_append, hrun₀, Clob.run, ok_bind, hinput, hrun₂]
      rfl
    obtain ⟨xs, ys, hemitted⟩ := List.append_of_mem hrests
    rw [hemitted, List.append_assoc, List.cons_append] at hwhole hopen
    rw [← List.append_assoc] at hwhole
    obtain ⟨o, ho, hoid⟩ := rests_of_open hwhole hc₂ hfits hnodup rfl fun e he =>
      hid.symm ▸ hopen e (List.mem_append_right _ (List.mem_cons_of_mem _ he))
    rw [hid] at hoid
    obtain ⟨c₃, hcancel⟩ := hc₂.cancel_present (hpos _ hadd) (fits_of_mem_addIds hfits hadd) ho hoid
    refine ⟨c₃, o, ?_, hoid, hcancel⟩
    rwa [hc₂.restingOrders_eq, hc₂.restingOrders_eq]

/-- A buy fills the only sell and rests with the residue, part of which is then sold to it. -/
theorem run_final_residue :
    ∃ c₀ emitted₀ c₁ emitted₁ c₂ emitted₂,
      Clob.run .int64 {} [.addOrder ⟨1, .sell, 5, 100, .gtc⟩] = .ok (c₀, emitted₀) ∧
      c₀.onInput .int64 (.addOrder ⟨2, .buy, 9, 100, .gtc⟩) = .ok (c₁, emitted₁) ∧
      c₁.run .int64 [.addOrder ⟨3, .sell, 1, 99, .ioc⟩, .cancelOrder ⟨1⟩] = .ok (c₂, emitted₂) ∧
      (∀ orderId xs e ys, emitted₁ = xs ++ e :: ys →
        e.Ends orderId (.addOrder ⟨2, .buy, 9, 100, .gtc⟩) →
        (∀ later ∈ ys ++ emitted₂, ¬ later.Names orderId) ∧
        c₂.onInput .int64 (.cancelOrder ⟨orderId⟩)
          = .ok (c₂, [.orderRejected ⟨orderId, .unknownOrderId⟩])) ∧
      ∀ add, InputEvent.addOrder ⟨2, .buy, 9, 100, .gtc⟩ = .addOrder add →
        (∃ rests, .orderResting rests ∈ emitted₁ ∧ rests.orderId = add.orderId) →
        (∀ e ∈ emitted₁ ++ emitted₂, ¬ e.Closes add.orderId) →
        ∃ c₃, ∃ o ∈ c₂.restingOrders .buy ++ c₂.restingOrders .sell, o.orderId = add.orderId ∧
          c₂.onInput .int64 (.cancelOrder ⟨add.orderId⟩)
            = .ok (c₃, [.orderCancelled ⟨add.orderId, 0, o.quantity, .userRequest⟩]) :=
  run_final _ _ _ (by decide +kernel) (by decide) (by decide)

end MatchingEngine
