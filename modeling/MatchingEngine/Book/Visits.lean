import MatchingEngine.Book.ImmediateOrCancel

/-!
# What the matching loops visit

The matching loops with a record of each iteration of the inner one: the node under the cursor, and
the arena as the iteration finds it. Erasing the record gives the loops back (`matchAgainst_traced`).
The record shows what the loops themselves do not: that no node is met twice, and that the node at
hand and the neighbours its links lead to have not been retired.
-/

namespace MatchingEngine

open Divisible Linked PriorityBook

variable {T : SignedInt}

/-- One iteration of the inner loop. -/
structure Visit where
  node : Ptr
  arena : Heap OrderNode

/-- A node that has not been retired. -/
def IsActive (arena : Heap OrderNode) (p : Ptr) : Prop :=
  ∃ node, arena.read p = some node ∧ node.active = true

/-- The node and its neighbours are there and have not been retired. -/
def Visit.Live (visit : Visit) : Prop :=
  ∃ node, visit.arena.read visit.node = some node ∧ node.active = true ∧
    ∀ p, node.prevSamePrice = some p ∨ node.nextSamePrice = some p → IsActive visit.arena p

/-! ### The loops, with a record -/

def matchLevelLoopTraced (T : SignedInt) : Nat → Option Ptr → PriceLevel → MatchState →
    Except Fault ((PriceLevel × MatchState) × List Visit)
  | _, none, level, s => return ((level, s), [])
  | 0, some _, level, s =>
    if 0 < s.incoming.quantity then throw .outOfFuel else return ((level, s), [])
  | fuel + 1, some resting, level, s =>
    if 0 < s.incoming.quantity then do
      let (next, level, r) ← matchLevelStep T resting level s
      let (result, visits) ← matchLevelLoopTraced T fuel next level r
      return (result, ⟨resting, s.arena⟩ :: visits)
    else return ((level, s), [])

def matchLevelTraced (T : SignedInt) (level : PriceLevel) (s : MatchState) :
    Except Fault ((PriceLevel × MatchState) × List Visit) :=
  matchLevelLoopTraced T s.arena.size level.head level { s with filledQuantity := 0 }

def matchAgainstLoopTraced (T : SignedInt) {side : Side} : Nat → OrderBookSide side → MatchState →
    Except Fault ((OrderBookSide side × MatchState) × List Visit)
  | fuel, opposite, s =>
    if 0 < s.incoming.quantity then
      match opposite.bestLevel with
      | none => return ((opposite, s), [])
      | some (levelPrice, level) =>
        if Crosses side s.incoming.price levelPrice then
          match fuel with
          | 0 => throw .outOfFuel
          | fuel + 1 => do
            let ((level, r), visits) ← matchLevelTraced T level s
            let s := { r with filledQuantity := T.add s.filledQuantity r.filledQuantity }
            let opposite : OrderBookSide side := ⟨opposite.levels.put levelPrice level⟩
            let opposite := if level.head = none then opposite.popBestLevel else opposite
            let (result, later) ← matchAgainstLoopTraced T fuel opposite s
            return (result, visits ++ later)
        else return ((opposite, s), [])
    else return ((opposite, s), [])

def matchAgainstTraced (T : SignedInt) {side : Side} (opposite : OrderBookSide side) (s : MatchState) :
    Except Fault ((OrderBookSide side × MatchState) × List Visit) :=
  matchAgainstLoopTraced T opposite.depth opposite s

section Loops

variable {side : Side} {level : PriceLevel} {book : OrderBookSide side} {s : MatchState}
  {queue others : List Slot} {levels : List (List Slot)}

theorem matchLevelLoop_traced (fuel : Nat) (cursor : Option Ptr) (level : PriceLevel) (s : MatchState) :
    (matchLevelLoopTraced T fuel cursor level s).map Prod.fst = matchLevelLoop T fuel cursor level s := by
  induction fuel generalizing cursor level s with
  | zero =>
    cases cursor with
    | none => rfl
    | some p =>
      rw [matchLevelLoopTraced, matchLevelLoop]
      split <;> rfl
  | succ fuel ih =>
    cases cursor with
    | none => rfl
    | some p =>
      rw [matchLevelLoopTraced, matchLevelLoop]
      split
      · cases hstep : matchLevelStep T p level s with
        | error fault => rfl
        | ok r =>
          obtain ⟨next, level', s'⟩ := r
          have ih := ih next level' s'
          simp only [ok_bind]
          rw [← ih]
          cases matchLevelLoopTraced T fuel next level' s' <;> rfl
      · rfl

theorem matchLevel_traced (level : PriceLevel) (s : MatchState) :
    (matchLevelTraced T level s).map Prod.fst = matchLevel T level s :=
  matchLevelLoop_traced ..

theorem matchAgainstLoop_traced (fuel : Nat) (book : OrderBookSide side) (s : MatchState) :
    (matchAgainstLoopTraced T fuel book s).map Prod.fst = matchAgainstLoop T fuel book s := by
  induction fuel generalizing book s with
  | zero =>
    rw [matchAgainstLoopTraced, matchAgainstLoop]
    split
    · cases book.bestLevel with
      | none => rfl
      | some best =>
        obtain ⟨price, level⟩ := best
        simp only
        split <;> rfl
    · rfl
  | succ fuel ih =>
    rw [matchAgainstLoopTraced, matchAgainstLoop]
    split
    · cases book.bestLevel with
      | none => rfl
      | some best =>
        obtain ⟨price, level⟩ := best
        simp only
        split
        · rw [← matchLevel_traced]
          cases matchLevelTraced T level s with
          | error fault => rfl
          | ok r =>
            obtain ⟨⟨level', r⟩, visits⟩ := r
            simp only [ok_bind, map_ok]
            rw [← ih]
            cases matchAgainstLoopTraced T fuel _ _ <;> rfl
        · rfl
    · rfl

/-- **The record does not change the run.** -/
theorem matchAgainst_traced (book : OrderBookSide side) (s : MatchState) :
    (matchAgainstTraced T book s).map Prod.fst = matchAgainst T book s :=
  matchAgainstLoop_traced ..

/-! ### What is visited -/

/-- The first `n` of these nodes are visited, each once, and each is live when it is. -/
structure Visited (ptrs : List Ptr) (n : Nat) (visits : List Visit) : Prop where
  nodes_eq : visits.map Visit.node = ptrs.take n
  live : ∀ visit ∈ visits, visit.Live

theorem visited_nil (ptrs : List Ptr) : Visited ptrs 0 [] where
  nodes_eq := rfl
  live := by simp

theorem Holds.isActive {arena : Heap OrderNode} {slot : Slot} (h : Holds arena slot) :
    IsActive arena slot.1 := by
  obtain ⟨node, hread, hactive, -⟩ := h.exists_node
  exact ⟨node, hread, hactive⟩

/-- The head of a level has no node before it, and the node behind it is linked. -/
theorem LevelReady.live {slot : Slot} (h : LevelReady T (slot :: queue) others level s) :
    Visit.Live ⟨slot.1, s.arena⟩ := by
  obtain ⟨node, hread, hactive, -⟩ := (h.holds slot (List.mem_cons_self ..)).exists_node
  have hlinks := h.chain.links_head
  rw [links_of_read hread] at hlinks
  obtain ⟨hprev, hnext⟩ := Prod.mk.inj (Option.some.inj hlinks)
  change node.prevSamePrice = none at hprev
  change node.nextSamePrice = _ at hnext
  refine ⟨node, hread, hactive, ?_⟩
  rintro p (hp | hp)
  · rw [hprev] at hp
    cases hp
  · rw [hnext] at hp
    obtain ⟨slot', hslot', rfl⟩ := List.mem_map.mp (List.mem_of_head? hp)
    exact (h.holds slot' (List.mem_cons_of_mem _ hslot')).isActive

theorem matchLevelLoopTraced_of_done (fuel : Nat) (cursor : Option Ptr)
    (hdone : s.incoming.quantity = 0) :
    matchLevelLoopTraced T fuel cursor level s = .ok ((level, s), []) := by
  have hnot : ¬ 0 < s.incoming.quantity := by omega
  cases fuel <;> cases cursor <;> simp [matchLevelLoopTraced, hnot, pure, Except.pure]

theorem matchLevelLoopTraced_of_step {fuel : Nat} {p : Ptr} {next : Option Ptr} {level' : PriceLevel}
    {s' : MatchState} {result : PriceLevel × MatchState} {visits : List Visit}
    (hdemand : 0 < s.incoming.quantity) (hstep : matchLevelStep T p level s = .ok (next, level', s'))
    (hrest : matchLevelLoopTraced T fuel next level' s' = .ok (result, visits)) :
    matchLevelLoopTraced T (fuel + 1) (some p) level s = .ok (result, ⟨p, s.arena⟩ :: visits) := by
  rw [matchLevelLoopTraced, if_pos hdemand, hstep]
  simp only [ok_bind, hrest]
  rfl

/-- **The inner loop.** It visits the nodes of the level in turn, one for each take. -/
theorem matchLevelLoopTraced_spec (queue : List Slot) :
    ∀ (fuel : Nat) (level : PriceLevel) (s : MatchState), queue.length ≤ fuel →
      LevelReady T queue others level s →
      ∃ result visits, matchLevelLoopTraced T fuel level.head level s = .ok (result, visits) ∧
        Visited (queue.map Prod.fst) (takes s.incoming.quantity (queue.map Prod.snd)).length visits := by
  induction queue with
  | nil =>
    intro fuel level s _ h
    have hhead : level.head = none := h.chain.head_eq
    refine ⟨(level, s), [], ?_, visited_nil _⟩
    rw [hhead]
    cases fuel <;> rfl
  | cons slot queue ih =>
    intro fuel level s hfuel h
    have hhead : level.head = some slot.1 := h.chain.head_eq
    have hslot : Holds s.arena slot := h.holds slot (List.mem_cons_self ..)
    have hqty : 0 < slot.2.quantity := (positive_cons.mp h.positive).1
    have hfits := h.fits_demand
    have hfilled := h.filled_nonneg
    rw [List.map_cons, List.map_cons, takes, amount_restingOrder]
    rcases h.demand_nonneg.eq_or_lt with hzero | hdemand
    · rw [if_neg (by omega)]
      exact ⟨_, [], matchLevelLoopTraced_of_done _ _ hzero.symm, visited_nil _⟩
    obtain ⟨fuel, rfl⟩ : ∃ n, fuel = n + 1 := ⟨fuel - 1, by rw [List.length_cons] at hfuel; omega⟩
    rw [hhead, if_pos hdemand, List.length_cons]
    by_cases hle : slot.2.quantity ≤ s.incoming.quantity
    · have hstep := matchLevelStep_full h.chain hslot hle (hfits.of_le (by omega) (by omega))
        (hfits.of_le (by omega) (by omega))
      obtain ⟨result, visits, hloop, hvisited⟩ := ih fuel _ _ (by simpa using hfuel) (h.takeWhole hle)
      refine ⟨result, _, matchLevelLoopTraced_of_step hdemand hstep hloop, ?_, ?_⟩
      · rw [List.map_cons, hvisited.nodes_eq, List.take_succ_cons]
        rfl
      · exact List.forall_mem_cons.mpr ⟨h.live, hvisited.live⟩
    · -- the demand ends in the head
      obtain ⟨next, hstep⟩ := matchLevelStep_part hslot (not_le.mp hle)
        ((h.fits slot (List.mem_cons_self ..)).of_le (by omega) (by omega)) hfits
      have hloop := matchLevelLoopTraced_of_step hdemand hstep
        (matchLevelLoopTraced_of_done fuel next rfl)
      rw [takes_of_nonpos (by omega)]
      refine ⟨_, _, hloop, rfl, ?_⟩
      exact List.forall_mem_cons.mpr ⟨h.live, fun _ hnil => absurd hnil List.not_mem_nil⟩

theorem matchLevelTraced_spec (h : LevelReady T queue others level { s with filledQuantity := 0 }) :
    ∃ queue' level' r visits, matchLevelTraced T level s = .ok ((level', r), visits) ∧
      LevelMatched T queue others level { s with filledQuantity := 0 } queue' level' r ∧
      Visited (queue.map Prod.fst) (takes s.incoming.quantity (queue.map Prod.snd)).length visits := by
  obtain ⟨queue', level', r, hlevel, hmatched⟩ := matchLevel_spec h
  have hlength := h.chain.length_le_size
  rw [List.length_map] at hlength
  obtain ⟨result, visits, htraced, hvisited⟩ := matchLevelLoopTraced_spec queue _ _ _ hlength h
  refine ⟨queue', level', r, visits, ?_, hmatched, hvisited⟩
  have hsame := matchLevel_traced (T := T) level s
  rw [hlevel, matchLevelTraced, htraced, map_ok, Except.ok.injEq] at hsame
  obtain rfl : result = (level', r) := hsame
  exact htraced

theorem matchAgainstLoopTraced_of_done (fuel : Nat) (hdone : s.incoming.quantity ≤ 0) :
    matchAgainstLoopTraced T fuel book s = .ok ((book, s), []) := by
  have hnot : ¬ 0 < s.incoming.quantity := by omega
  cases fuel <;> simp [matchAgainstLoopTraced, hnot, pure, Except.pure]

/-- A demand that reaches past a level has visited all of it. -/
theorem Visited.append {ptrs more : List Ptr} {n : Nat} {visits later : List Visit}
    (h : Visited ptrs ptrs.length visits) (hlater : Visited more n later) :
    Visited (ptrs ++ more) (ptrs.length + n) (visits ++ later) where
  nodes_eq := by
    have hall : ptrs.take (ptrs.length + n) = ptrs := List.take_of_length_le (Nat.le_add_right ..)
    rw [List.map_append, h.nodes_eq, hlater.nodes_eq, List.take_length, List.take_append, hall,
      Nat.add_sub_cancel_left]
  live := by
    intro visit hvisit
    exact (List.mem_append.mp hvisit).elim (h.live visit) (hlater.live visit)

/-- A demand that ends in a level visits nothing behind it. -/
theorem Visited.extend {ptrs : List Ptr} {n : Nat} {visits : List Visit} (h : Visited ptrs n visits)
    (hle : n ≤ ptrs.length) (more : List Ptr) : Visited (ptrs ++ more) n visits where
  nodes_eq := by rw [h.nodes_eq, List.take_append_of_le_length hle]
  live := h.live

/-- **The outer loop.** It visits the nodes of a side in turn, one for each take. -/
theorem matchAgainstLoopTraced_spec (levels : List (List Slot)) :
    ∀ (fuel : Nat) (book : OrderBookSide side) (s : MatchState), levels.length ≤ fuel →
      SideReady T levels others book s →
      ∃ result visits, matchAgainstLoopTraced T fuel book s = .ok (result, visits) ∧
        Visited (levels.flatten.map Prod.fst)
          (takes s.incoming.quantity (crossed side s.incoming.price (ordersOf levels))).length visits := by
  induction levels with
  | nil =>
    intro fuel book s _ h
    have hentries : book.levels.entries = [] := List.forall₂_nil_right_iff.mp h.holds
    refine ⟨(book, s), [], ?_, visited_nil _⟩
    cases fuel <;> simp [matchAgainstLoopTraced, OrderBookSide.bestLevel, OrderedMap.first?, hentries,
      pure, Except.pure]
  | cons queue levels ih =>
    intro fuel book s hfuel h
    rcases h.demand_nonneg.eq_or_lt with hzero | hdemand
    · rw [takes_of_nonpos hzero.ge]
      exact ⟨_, [], matchAgainstLoopTraced_of_done _ hzero.ge, visited_nil _⟩
    obtain ⟨⟨price, level⟩, entries, -, -, hentries⟩ := List.forall₂_cons_right_iff.mp h.holds
    have hbest : book.bestLevel = some (price, level) := by
      rw [OrderBookSide.bestLevel, OrderedMap.first?, hentries, List.head?_cons]
    obtain ⟨fuel, rfl⟩ : ∃ n, fuel = n + 1 := ⟨fuel - 1, by rw [List.length_cons] at hfuel; omega⟩
    rw [matchAgainstLoopTraced, if_pos hdemand, hbest]
    by_cases hcross : Crosses side s.incoming.price price
    · obtain ⟨queue', level', r, visits, hlevel, hmatched, hvisited⟩ :=
        matchLevelTraced_spec (h.levelReady hentries)
      have hput : (book.levels.put price level').entries = (price, level') :: entries :=
        OrderedMap.put_first hentries
      have hpos := h.positive_level
      obtain ⟨hall, -⟩ := h.crossed_cons hentries hcross
      have hincoming := round_incoming_eq hmatched
      rw [hall, takes_append hpos.1, List.length_append, List.flatten_cons, List.map_append]
      simp only [if_pos hcross, hlevel, ok_bind, h.round_add_eq hmatched]
      by_cases hdrained : level'.head = none
      · -- the level is popped, all of it visited, and the loop goes on with the levels behind it
        have hle := (h.drained_iff hentries hmatched).mp hdrained
        have hlength := length_takes_of_total_le hpos.1 hle
        rw [List.length_map] at hlength
        have hpop : (OrderBookSide.popBestLevel ⟨book.levels.put price level'⟩ :
            OrderBookSide side).levels.entries = entries := by
          rw [OrderBookSide.popBestLevel, OrderedMap.entries_eraseFirst, hput, List.tail_cons]
        obtain ⟨result, later, hloop, hlater⟩ :=
          ih fuel _ _ (by simpa using hfuel) (h.next hentries hmatched hdrained hpop)
        rw [MatchState.afterLevel] at hloop hlater
        rw [if_pos hdrained, hloop]
        refine ⟨result, visits ++ later, rfl, ?_⟩
        rw [hlength] at hvisited ⊢
        rw [hincoming, min_eq_right hle] at hlater
        rw [← List.length_map (f := Prod.fst)] at hvisited ⊢
        exact hvisited.append hlater
      · -- the demand ended in the level
        have hlt := mt (h.drained_iff hentries hmatched).mpr hdrained
        have hdone : (s.afterLevel r).incoming.quantity ≤ 0 := by
          rw [MatchState.afterLevel, hincoming]
          simp only
          omega
        have hend : matchAgainstLoopTraced T fuel (⟨book.levels.put price level'⟩ : OrderBookSide side)
            (s.afterLevel r) = .ok (_, []) := matchAgainstLoopTraced_of_done _ hdone
        rw [MatchState.afterLevel] at hend
        rw [if_neg hdrained, hend, takes_of_nonpos (q := s.incoming.quantity - _) (by omega)]
        refine ⟨_, _, rfl, ?_⟩
        rw [List.append_nil]
        apply hvisited.extend
        have hle := length_takes_le s.incoming.quantity (queue.map Prod.snd)
        rwa [List.length_map] at hle ⊢
    · rw [h.crossed_eq_nil hentries hcross]
      exact ⟨(book, s), [], by simp [if_neg hcross, pure, Except.pure], visited_nil _⟩

end Loops

/-! ### Adds -/

namespace PriorityBook

/-- One trade for each take. -/
theorem length_trades_fillEvents (taker q : Int) (os : List RestingOrder) :
    (trades (fillEvents taker q os)).length = (takes q os).length := by
  rw [fillEvents]
  induction takes q os with
  | nil => rfl
  | cons take takes ih =>
    have hpair : trades (takeEvents taker take) = [⟨taker, take.1.orderId, take.2⟩] := by
      rw [takeEvents]
      split <;> rfl
    rw [List.flatMap_cons, trades_append, List.length_append, ih, hpair, List.length_cons,
      List.length_cons, List.length_nil]
    omega

theorem length_trades_onAddOrder (b : PriorityBook) (fillable : Bool) (event : AddOrderEvent) :
    (trades (b.onAddOrder fillable event).2).length
      ≤ (takes event.quantity (b.makers event.side event.price)).length := by
  have hfills : ∀ terminal : OutputEvent, terminal.trade? = none →
      (trades (fillEvents event.orderId event.quantity (b.makers event.side event.price)
        ++ [terminal])).length ≤ (takes event.quantity (b.makers event.side event.price)).length := by
    intro terminal hterminal
    have hlast : trades [terminal] = [] := by
      rw [trades, List.filterMap_cons_none hterminal, List.filterMap_nil]
    rw [trades_append, hlast, List.append_nil, length_trades_fillEvents]
  apply onAddOrder_cases (P := fun _ emitted => (trades emitted).length ≤ _)
  · intro _ _
    exact Nat.zero_le _
  intro _
  apply addOrder_cases (P := fun _ emitted => (trades emitted).length ≤ _)
  · intro _ _
    exact Nat.zero_le _
  · exact fun _ => hfills _ rfl
  · exact fun _ _ _ => hfills _ rfl
  · exact fun _ _ _ => hfills _ rfl
  · exact fun _ _ _ => hfills _ rfl

end PriorityBook

variable {c : Clob} {levels : Side → List (List Slot)}

/-- The orders at the nodes visited are the first of the makers. -/
theorem Represents.visited_prefix (h : Represents T c levels) {event : AddOrderEvent} {q : Int}
    {visits : List Visit}
    (hvisited : Visited ((levels event.side.opposite).flatten.map Prod.fst)
      (takes q ((bookOf levels).makers event.side event.price)).length visits) :
    ((visits.map Visit.node).filterMap c.arena.read).map OrderNode.order <+: c.makers event := by
  rw [h.makers_eq, hvisited.nodes_eq, ← List.map_take]
  rw [filterMap_read_eq fun slot hslot => h.holds (List.mem_of_mem_take hslot), List.map_take]
  have hle := length_takes_le q ((bookOf levels).makers event.side event.price)
  have hsplit : (levels event.side.opposite).flatten.map Prod.snd
      = (bookOf levels).makers event.side event.price ++ (bookOf levels).bystanders event.side event.price :=
    (h.valid.makers_append_bystanders event.side event.price).symm
  rw [hsplit, List.take_append_of_le_length hle]
  exact List.take_prefix ..

/-- **The matching loops.** Whatever add comes to whatever book a run leads to, it is processed without
a fault: the loops end, no pointer leads nowhere and no assertion fails. The inner loop meets the nodes
of the first orders that the add crosses, none twice and each live together with its neighbours, and
the add trades at most once for each. -/
theorem run_visits (events : List InputEvent) (add : AddOrderEvent) (hfits : ∀ e ∈ events, e.Fits T)
    (hadd : (InputEvent.addOrder add).Fits T) :
    ∃ c emitted c' out opposite s visits, Clob.run T {} events = .ok (c, emitted) ∧
      c.onInput T (.addOrder add) = .ok (c', out) ∧
      matchAgainst T (c.sideBook add.side.opposite) ⟨c.arena, c.lookup, add, 0, []⟩ = .ok (opposite, s) ∧
      matchAgainstTraced T (c.sideBook add.side.opposite) ⟨c.arena, c.lookup, add, 0, []⟩
        = .ok ((opposite, s), visits) ∧
      (∀ visit ∈ visits, visit.Live) ∧ (visits.map Visit.node).Nodup ∧
      ((visits.map Visit.node).filterMap c.arena.read).map OrderNode.order <+: c.makers add ∧
      (trades out).length ≤ visits.length ∧ visits.length ≤ (c.makers add).length := by
  obtain ⟨c, emitted, levels, hrun, hc⟩ := run_represents events hfits
  obtain ⟨c', levels', hinput, -⟩ := hc.onInput hadd
  have hout := length_trades_onAddOrder (bookOf levels) (c.probe T (.addOrder add)) add
  have hmakers := length_takes_le add.quantity ((bookOf levels).makers add.side add.price)
  obtain ⟨result, visits, htraced, hvisited⟩ : ∃ result visits,
      matchAgainstTraced T (c.sideBook add.side.opposite) ⟨c.arena, c.lookup, add, 0, []⟩
          = .ok (result, visits) ∧
        Visited ((levels add.side.opposite).flatten.map Prod.fst)
          (takes add.quantity ((bookOf levels).makers add.side add.price)).length visits := by
    by_cases hqty : 0 ≤ add.quantity
    · have hready : SideReady T _ (levels add.side).flatten _ _ := hc.ready hqty hadd.2.1
      exact matchAgainstLoopTraced_spec (levels add.side.opposite) _ _ _
        (hc.sides add.side.opposite).length_eq.ge hready
    · rw [takes_of_nonpos (by omega)]
      exact ⟨_, [], matchAgainstLoopTraced_of_done _ (not_le.mp hqty).le, visited_nil _⟩
  have hlength : visits.length
      = (takes add.quantity ((bookOf levels).makers add.side add.price)).length := by
    have hle : (takes add.quantity ((bookOf levels).makers add.side add.price)).length
        ≤ ((levels add.side.opposite).flatten.map Prod.fst).length := by
      have hsub := (crossed_sublist add.side.opposite add.price
        (bookOf levels add.side.opposite)).length_le
      have hslots : (bookOf levels add.side.opposite).length
          = ((levels add.side.opposite).flatten.map Prod.fst).length := by
        rw [bookOf, ordersOf, List.length_map, List.length_map]
      exact hmakers.trans (hsub.trans hslots.le)
    rw [← List.length_map Visit.node, hvisited.nodes_eq, List.length_take, min_eq_left hle]
  have hmatch : matchAgainst T (c.sideBook add.side.opposite) ⟨c.arena, c.lookup, add, 0, []⟩
      = .ok result := by
    rw [← matchAgainst_traced, htraced]
    rfl
  refine ⟨c, emitted, c', _, result.1, result.2, visits, hrun, hinput, hmatch, htraced, hvisited.live,
    ?_, hc.visited_prefix hvisited, ?_, ?_⟩
  · rw [hvisited.nodes_eq]
    exact (hc.addresses_side add.side.opposite).sublist (List.take_sublist ..)
  · rw [hlength]
    exact hout
  · rw [hlength, hc.makers_eq]
    exact hmakers

theorem run_visits_level :
    ∃ c emitted c' out opposite s visits, Clob.run .int64 {} [.addOrder ⟨1, .sell, 5, 100, .gtc⟩,
        .addOrder ⟨2, .sell, 4, 101, .gtc⟩] = .ok (c, emitted) ∧
      c.onInput .int64 (.addOrder ⟨3, .buy, 7, 101, .gtc⟩) = .ok (c', out) ∧
      matchAgainst .int64 (c.sideBook .sell) ⟨c.arena, c.lookup, ⟨3, .buy, 7, 101, .gtc⟩, 0, []⟩
        = .ok (opposite, s) ∧
      matchAgainstTraced .int64 (c.sideBook .sell) ⟨c.arena, c.lookup, ⟨3, .buy, 7, 101, .gtc⟩, 0, []⟩
        = .ok ((opposite, s), visits) ∧
      (∀ visit ∈ visits, visit.Live) ∧ (visits.map Visit.node).Nodup ∧
      ((visits.map Visit.node).filterMap c.arena.read).map OrderNode.order
        <+: c.makers ⟨3, .buy, 7, 101, .gtc⟩ ∧
      (trades out).length ≤ visits.length ∧
      visits.length ≤ (c.makers ⟨3, .buy, 7, 101, .gtc⟩).length :=
  run_visits _ ⟨3, .buy, 7, 101, .gtc⟩ (by decide +kernel) (by decide +kernel)

end MatchingEngine
