import MatchingEngine.Book.Untouched

/-!
# Adding and cancelling

To an add that rests in full and to the cancel of another order it does not matter whether an order is in
the book. So the cancel of an order that rests in full undoes its add, however much of both has happened in
between, and until then no event tells whether it is in the book.
-/

namespace MatchingEngine

open PriorityBook

variable {T : SignedInt} {c c' : Clob} {levels levels' : Side → List (List Slot)} {o : RestingOrder}

/-- A cancel of another id, or an add that rests in full. -/
def InputEvent.PassesBy (orderId : Int) (c : Clob) : InputEvent → Prop
  | .addOrder event => RestsInFull c event
  | .cancelOrder event => event.orderId ≠ orderId
  | .shutdown => False

/-- Every input passes by the order in the book that it comes to. -/
def PassBy (T : SignedInt) (orderId : Int) : Clob → List InputEvent → Prop
  | _, [] => True
  | c, event :: events =>
    event.PassesBy orderId c ∧
      ∀ c' emitted, c.onInput T event = .ok (c', emitted) → PassBy T orderId c' events

/-- What passes by does not trade, and does not name the order. -/
theorem Without.onInput_of_passesBy (h : Without T o c c' levels levels') {event : InputEvent}
    (hfits : event.Fits T) (hpass : event.PassesBy o.orderId c) :
    ∃ c₁ c₁' levels₁ levels₁' emitted, c.onInput T event = .ok (c₁, emitted) ∧
      c'.onInput T event = .ok (c₁', emitted) ∧ Without T o c₁ c₁' levels₁ levels₁' := by
  obtain ⟨c₁, levels₁, hinput, -⟩ := h.left.onInput hfits
  have hspec : event.orderId? ≠ some o.orderId ∧ (∀ fok, event = .addOrder fok → fok.tif ≠ .fok) ∧
      trades ((bookOf levels).onInput (c.probe T event) event).2 = [] := by
    cases event with
    | shutdown => exact absurd hpass id
    | cancelOrder event =>
      refine ⟨fun heq => hpass (Option.some.inj heq), fun _ => nofun, ?_⟩
      exact onCancelOrder_cases (P := fun _ emitted => trades emitted = []) (fun _ => rfl) fun _ _ _ => rfl
    | addOrder event =>
      obtain ⟨haccepted, hgtc, hfresh, hclear⟩ := hpass
      rw [h.left.makers_eq] at hclear
      rw [h.left.fresh_iff] at hfresh
      refine ⟨fun heq => hfresh ?_, fun fok hevent hfok => ?_, ?_⟩
      · rw [Option.some.inj heq]
        exact List.mem_map.mpr ⟨o, h.rests, rfl⟩
      · cases hevent
        rw [hgtc] at hfok
        cases hfok
      · rw [onInput_of_clear h.left.valid haccepted hgtc hfresh hclear]
        rfl
  obtain ⟨hne, hnotFok, hsilent⟩ := hspec
  obtain ⟨c₁', levels₂, levels₂', hinput', hwithout⟩ := h.onInput hfits hne
    (fun fok hevent hfok => absurd hfok (hnotFok fok hevent)) hinput fun trade htrade => by
      rw [hsilent] at htrade
      cases htrade
  exact ⟨c₁, c₁', levels₂, levels₂', _, hinput, hinput', hwithout⟩

/-- **Adding and cancelling is an exact undo.** A valid GTC add that rests in full, any inputs that pass
it by, and its cancel lead to the book that these inputs lead to by themselves, and they emit the same
in either run. -/
theorem run_undo (events between : List InputEvent) (add : AddOrderEvent) {emitted : List OutputEvent}
    (hfits : ∀ e ∈ events, e.Fits T) (haddFits : (InputEvent.addOrder add).Fits T)
    (hbetween : ∀ e ∈ between, e.Fits T) (hrun : Clob.run T {} events = .ok (c, emitted))
    (hadd : RestsInFull c add) {c₁ : Clob} {added : List OutputEvent}
    (hadded : c.onInput T (.addOrder add) = .ok (c₁, added)) (hpass : PassBy T add.orderId c₁ between) :
    ∃ c₂ emittedBetween c₃ cancelled c', c₁.run T between = .ok (c₂, emittedBetween) ∧
      c₂.onInput T (.cancelOrder ⟨add.orderId⟩) = .ok (c₃, cancelled) ∧
      c.run T between = .ok (c', emittedBetween) ∧ c₃.view = c'.view := by
  obtain ⟨c₀, emitted₀, levels, hrun₀, hc⟩ := run_represents events hfits
  obtain ⟨rfl, rfl⟩ := ok_unique hrun hrun₀
  obtain ⟨c₁', levels₁, hadded', hwithout⟩ := hc.without haddFits hadd
  obtain ⟨rfl, rfl⟩ := ok_unique hadded hadded'
  obtain ⟨c₂, c', levels₂, levels', emittedBetween, hwith, halone, hwithout'⟩ :=
    hwithout.run_of_steps (P := PassBy T add.orderId) (fun h hfits hpass => by
      obtain ⟨c₁, c₁', levels₁, levels₁', emitted, hinput, hinput', hnext⟩ :=
        h.onInput_of_passesBy (hfits _ (List.mem_cons_self ..)) hpass.1
      exact ⟨c₁, c₁', levels₁, levels₁', emitted, hinput, hinput', hnext, hpass.2 c₁ emitted hinput⟩)
      hbetween hpass
  obtain ⟨c₃, levels₃, hcancel, hc₃, hbook⟩ := hwithout'.cancel haddFits.1
  exact ⟨c₂, emittedBetween, c₃, _, c', hwith, hcancel, halone, hc₃.view_eq hwithout'.right hbook⟩

/-- The order is in the middle of its queue, and then at its head. -/
theorem run_undo_middle :
    ∃ c c₁, (∃ emitted, Clob.run .int64 {} [.addOrder ⟨1, .buy, 5, 100, .gtc⟩] = .ok (c, emitted)) ∧
      (∃ added, c.onInput .int64 (.addOrder ⟨2, .buy, 7, 100, .gtc⟩) = .ok (c₁, added)) ∧
      ∃ c₂ emittedBetween c₃ cancelled c',
        c₁.run .int64 [.addOrder ⟨3, .buy, 2, 100, .gtc⟩, .cancelOrder ⟨1⟩]
          = .ok (c₂, emittedBetween) ∧
        c₂.onInput .int64 (.cancelOrder ⟨2⟩) = .ok (c₃, cancelled) ∧
        c.run .int64 [.addOrder ⟨3, .buy, 2, 100, .gtc⟩, .cancelOrder ⟨1⟩]
          = .ok (c', emittedBetween) ∧
        c₃.view = c'.view := by
  refine ⟨_, _, ⟨_, rfl⟩, ⟨_, rfl⟩, run_undo [.addOrder ⟨1, .buy, 5, 100, .gtc⟩]
    [.addOrder ⟨3, .buy, 2, 100, .gtc⟩, .cancelOrder ⟨1⟩] ⟨2, .buy, 7, 100, .gtc⟩ (by decide +kernel)
    (by decide +kernel) (by decide +kernel) rfl (by decide +kernel) rfl ?_⟩
  refine ⟨(by decide +kernel : RestsInFull _ _), fun c' emitted hinput => ?_⟩
  exact ⟨(by decide : (1 : Int) ≠ 2), fun _ _ _ => trivial⟩

end MatchingEngine
