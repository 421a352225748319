import MatchingEngine.Benchmark.OrderStream
import MatchingEngine.Model.OrderGenerator

/-!
# The generator's events

Whatever is drawn, a call of `next` either adds an order under the next id and appends it to the live
ones, or cancels a live order and takes it off. The live orders are those added and not yet cancelled,
filled or not, so the events form an order stream, and the book answers them as it does any.
-/

namespace MatchingEngine

open Sampling

/-- The integers of the profile are 32-bit. -/
structure MarketProfile.Fits {ρ : Type} (profile : MarketProfile ρ) : Prop where
  initialMid : (SignedInt.bits 32).Fits profile.initialMid
  tickSize : (SignedInt.bits 32).Fits profile.tickSize
  qtyMin : (SignedInt.bits 32).Fits profile.qtyMin
  qtyMax : (SignedInt.bits 32).Fits profile.qtyMax
  hotHalfSpreadExtraTicks : (SignedInt.bits 32).Fits profile.hotHalfSpreadExtraTicks
  baseHalfSpreadTicks : (SignedInt.bits 32).Fits profile.baseHalfSpreadTicks
  spreadAsymTicks : (SignedInt.bits 32).Fits profile.spreadAsymTicks

namespace OrderGenerator

variable {ρ σ : Type} [Doubles ρ] [Distributions ρ σ] {profile : MarketProfile ρ}
  {g g' : OrderGenerator ρ}

/-! ### What is sampled -/

theorem fits_bits32_iff {x : Int} : (SignedInt.bits 32).Fits x ↔ -2 ^ 31 ≤ x ∧ x < 2 ^ 31 :=
  SignedInt.fits_bits_iff

/-- A price on the grid of the profile. -/
structure OnGrid (profile : MarketProfile ρ) (price : Int) : Prop where
  pos : 0 < price
  dvd : max profile.tickSize 1 ∣ price
  fits : SignedInt.int64.Fits price

theorem onGrid_snapToTick (hprofile : profile.Fits)
    (hround : ∀ x : ρ, SignedInt.int64.Fits (Doubles.lround x)) (rawPrice : ρ) :
    OnGrid profile (snapToTick profile rawPrice) := by
  have htick : 1 ≤ tick profile := le_max_right ..
  have hsmall : tick profile < 2 ^ 31 := max_lt (fits_bits32_iff.mp hprofile.tickSize).2 (by decide)
  obtain ⟨rounded, hrounded⟩ : ∃ rounded, rounded = if Doubles.lround rawPrice < tick profile
      then tick profile else Doubles.lround rawPrice := ⟨_, rfl⟩
  have hle : tick profile ≤ rounded := by
    rw [hrounded]
    split <;> omega
  have hbound : rounded < 2 ^ 63 := by
    have := (SignedInt.fits_int64_iff.mp (hround rawPrice)).2
    rw [hrounded]
    split <;> omega
  -- at least one tick fits below the rounded price, so the snapped price is never replaced
  have hdiv : 1 ≤ rounded / tick profile := Int.le_ediv_of_mul_le (by omega) (by omega)
  have hpos : 0 < rounded / tick profile * tick profile := Int.mul_pos (by omega) (by omega)
  have hsnapped := Int.ediv_mul_le rounded (show tick profile ≠ 0 by omega)
  have heq : snapToTick profile rawPrice = rounded / tick profile * tick profile := by
    rw [snapToTick]
    simp only [← hrounded, Int.tdiv_eq_ediv_of_nonneg (show 0 ≤ rounded by omega)]
    rw [if_neg hpos.ne']
  rw [heq]
  exact ⟨hpos, Dvd.intro_left _ rfl, SignedInt.fits_int64_of_lt hpos.le (by omega)⟩

section Yields

omit [Doubles ρ] in
theorem yields_uniform : Yields (uniform : Sampling σ ρ) fun _ => True := yields_draw fun _ => trivial

omit [Doubles ρ] in
theorem yields_normal : Yields (normal : Sampling σ ρ) fun _ => True := yields_draw fun _ => trivial

theorem yields_sampleSide :
    Yields (sampleSide profile g : Sampling σ Side) fun _ => True := by
  rw [sampleSide]
  refine yields_ite (fun _ => ?_) fun _ => ?_
  · exact yields_uniform.bind fun u _ => yields_pure trivial
  · refine yields_uniform.bind fun u _ => yields_ite (fun _ => yields_pure trivial) fun _ => ?_
    exact yields_uniform.bind fun u _ => yields_pure trivial

theorem yields_geometricTailTicks :
    Yields (geometricTailTicks profile : Sampling σ ρ) fun _ => True := by
  rw [geometricTailTicks]
  exact yields_uniform.bind fun u _ => yields_pure trivial

theorem yields_samplePrice (hprofile : profile.Fits)
    (hround : ∀ x : ρ, SignedInt.int64.Fits (Doubles.lround x)) (side : Side) (aggressiveProb : ρ) :
    Yields (samplePrice profile g side aggressiveProb : Sampling σ Int) (OnGrid profile) := by
  rw [samplePrice]
  refine yields_uniform.bind fun u _ => yields_ite (fun _ => ?_) fun _ => ?_
  all_goals
    refine yields_geometricTailTicks.bind fun depthTicks _ => ?_
    cases side <;> exact yields_pure (onGrid_snapToTick hprofile hround _)

theorem yields_sampleQuantity (hprofile : profile.Fits) (hqty : profile.qtyMin ≤ profile.qtyMax) :
    Yields (sampleQuantity profile : Sampling σ Int)
      fun quantity => 0 < quantity ∧ SignedInt.int64.Fits quantity := by
  rw [sampleQuantity]
  refine yields_normal.bind fun z _ => ?_
  have hmax := (fits_bits32_iff.mp hprofile.qtyMax).2
  have hclamp : ∀ x, ∃ clamped, clampInt x profile.qtyMin profile.qtyMax = some clamped ∧
      clamped ≤ profile.qtyMax := by
    intro x
    refine ⟨_, if_neg hqty.not_gt, ?_⟩
    split
    · exact hqty
    · split <;> omega
  obtain ⟨clamped, hclamped, hle⟩ :=
    hclamp (Doubles.lround (Doubles.exp (profile.qtyLogMean + profile.qtyLogStddev * z)))
  refine (yields_lift hclamped (P := (· = clamped)) rfl).bind fun quantity heq => yields_pure ?_
  rw [heq]
  exact ⟨by omega, SignedInt.fits_int64_of_lt (by omega) (by omega)⟩

theorem weightedIndex_lt (u : ρ) (i : Nat) (weights : List ρ) (hne : 0 < i + weights.length) :
    weightedIndex u i weights < i + weights.length := by
  induction weights generalizing u i with
  | nil =>
    rw [weightedIndex]
    simp only [List.length_nil] at hne ⊢
    omega
  | cons weight weights ih =>
    rw [weightedIndex]
    simp only [List.length_cons] at hne ⊢
    split
    · omega
    · have := ih (u - weight) (i + 1) (by omega)
      omega

theorem yields_sampleCancelIndex
    (hindex : ∀ n (rng : σ), (Distributions.uniformInt ρ n rng).1 ≤ n) (hlive : g.live ≠ [])
    (bestBid bestAsk : Int) :
    Yields (sampleCancelIndex profile g bestBid bestAsk : Sampling σ Nat) (· < g.live.length) := by
  have hpos := List.length_pos_of_ne_nil hlive
  have huniform : Yields (uniformInt ρ (g.live.length - 1) : Sampling σ Nat) (· < g.live.length) := by
    refine yields_draw fun rng => ?_
    have := hindex (g.live.length - 1) rng
    omega
  rw [sampleCancelIndex]
  refine yields_ite (fun _ => huniform) fun _ => yields_ite (fun _ => huniform) fun _ => ?_
  refine (yields_uniform (ρ := ρ)).bind fun u _ => yields_pure ?_
  have hlt := weightedIndex_lt (u * ((g.live.map (cancelWeight profile bestBid bestAsk)).foldl
    (· + ·) 0.0)) 0 (g.live.map (cancelWeight profile bestBid bestAsk)) (by simpa using hpos)
  simpa using hlt

/-- Replacing an element by the last one and dropping that takes the element out. -/
theorem perm_set_dropLast {α : Type} {l : List α} {i : Nat} {a b : α} (ha : l[i]? = some a)
    (hb : l.getLast? = some b) : l.Perm (a :: (l.set i b).dropLast) := by
  obtain ⟨init, rfl⟩ := List.getLast?_eq_some_iff.mp hb
  have hlast : (init ++ [b]).Perm (b :: init) := List.perm_append_singleton b init
  obtain ⟨hi, hget⟩ := List.getElem?_eq_some_iff.mp ha
  rw [List.length_append, List.length_singleton] at hi
  by_cases hlt : i < init.length
  · rw [List.getElem_append_left hlt] at hget
    rw [List.set_append_left _ _ hlt, List.dropLast_concat]
    calc
      (init ++ [b]).Perm (b :: init) := hlast
      _ |>.Perm (b :: a :: init.eraseIdx i) := by
        rw [← hget]
        exact (List.getElem_cons_eraseIdx_perm hlt).symm.cons b
      _ |>.Perm (a :: b :: init.eraseIdx i) := List.Perm.swap ..
      _ |>.Perm (a :: init.set i b) := (List.set_perm_cons_eraseIdx hlt b).symm.cons a
  · obtain rfl : i = init.length := by omega
    rw [List.getElem_concat_length rfl] at hget
    rw [List.set_append_right _ _ (le_refl _), Nat.sub_self, List.set_cons_zero, List.dropLast_concat,
      ← hget]
    exact hlast

end Yields

/-! ### One call -/

/-- What a call of `next` does. -/
inductive Stepped (profile : MarketProfile ρ) (g : OrderGenerator ρ) :
    InputEvent → OrderGenerator ρ → Prop
  | add {side : Side} {quantity price : Int} {g' : OrderGenerator ρ}
      (hid : g'.lastOrderId = SignedInt.int64.add g.lastOrderId 1)
      (hlive : g'.live = g.live ++ [⟨SignedInt.int64.add g.lastOrderId 1, side, price⟩])
      (hquantity : 0 < quantity ∧ SignedInt.int64.Fits quantity) (hprice : OnGrid profile price) :
      Stepped profile g
        (.addOrder ⟨SignedInt.int64.add g.lastOrderId 1, side, quantity, price, .gtc⟩) g'
  | cancel {order : LiveResting} {g' : OrderGenerator ρ} (hid : g'.lastOrderId = g.lastOrderId)
      (hlive : g.live.Perm (order :: g'.live)) : Stepped profile g (.cancelOrder ⟨order.id⟩) g'

section Next

variable (hprofile : profile.Fits) (hqty : profile.qtyMin ≤ profile.qtyMax)
  (hround : ∀ x : ρ, SignedInt.int64.Fits (Doubles.lround x))
  (hindex : ∀ n (rng : σ), (Distributions.uniformInt ρ n rng).1 ≤ n)

include hindex in
theorem yields_nextCancel (hlive : g.live ≠ []) :
    Yields (nextCancel profile g : Sampling σ (InputEvent × OrderGenerator ρ))
      fun s => Stepped profile g s.1 s.2 := by
  rw [nextCancel]
  refine (yields_sampleCancelIndex hindex hlive _ _).bind fun i hi => ?_
  have horder : g.live[i]? = some g.live[i] := List.getElem?_eq_getElem hi
  refine (yields_lift horder (P := (· = g.live[i])) rfl).bind fun order heq => ?_
  have hback : g.live.getLast? = some (g.live.getLast hlive) := List.getLast?_eq_some_getLast hlive
  refine (yields_lift hback (P := (· = g.live.getLast hlive)) rfl).bind fun back heq' => yields_pure ?_
  subst heq heq'
  exact .cancel rfl (perm_set_dropLast horder hback)

include hprofile hqty hround in
theorem yields_nextAdd (aggressiveP : ρ) :
    Yields (nextAdd profile g aggressiveP : Sampling σ (InputEvent × OrderGenerator ρ))
      fun s => Stepped profile g s.1 s.2 := by
  rw [nextAdd]
  refine yields_sampleSide.bind fun side _ => ?_
  refine (yields_sampleQuantity hprofile hqty).bind fun quantity hquantity => ?_
  refine (yields_samplePrice hprofile hround side aggressiveP).bind fun price hprice => ?_
  exact yields_pure (.add rfl rfl hquantity hprice)

omit [Doubles ρ] in
/-- A call depends on the live orders and the last id alone. -/
theorem Stepped.congr {g₁ : OrderGenerator ρ} {event : InputEvent} (h : Stepped profile g₁ event g')
    (hid : g₁.lastOrderId = g.lastOrderId) (hlive : g₁.live = g.live) : Stepped profile g event g' := by
  cases h with
  | add hid' hlive' hquantity hprice =>
    rw [hid] at hid' hlive' ⊢
    exact .add hid' (hlive ▸ hlive') hquantity hprice
  | cancel hid' hlive' => exact .cancel (hid'.trans hid) (hlive ▸ hlive')

theorem yields_stepHeat : Yields (stepHeat profile g : Sampling σ (OrderGenerator ρ))
    fun g₁ => g₁.lastOrderId = g.lastOrderId ∧ g₁.live = g.live := by
  rw [stepHeat]
  exact yields_normal.bind fun z _ => yields_pure ⟨rfl, rfl⟩

include hprofile hqty hround hindex in
/-- **One call.** -/
theorem yields_next :
    Yields (next profile g : Sampling σ (InputEvent × OrderGenerator ρ))
      fun s => Stepped profile g s.1 s.2 := by
  rw [next]
  refine yields_stepHeat.bind fun g₁ hg₁ => yields_normal.bind fun z _ => yields_ite (fun _ => ?_) fun hlive => ?_
  · refine (yields_nextAdd hprofile hqty hround _).mono fun s hs => ?_
    exact hs.congr hg₁.1 hg₁.2
  · have hne : g₁.live ≠ [] := by simpa using hlive
    refine yields_uniform.bind fun u _ => yields_ite (fun _ => ?_) fun _ => ?_
    · refine (yields_nextCancel hindex ?_).mono fun s hs => ?_
      · exact hne
      · exact hs.congr hg₁.1 hg₁.2
    · refine (yields_nextAdd hprofile hqty hround _).mono fun s hs => ?_
      exact hs.congr hg₁.1 hg₁.2

end Next

/-! ### Many calls -/

/-- The events generated so far, and what the generator keeps of them. -/
structure Streamed (profile : MarketProfile ρ) (events : List InputEvent) (g : OrderGenerator ρ) :
    Prop where
  stream : OrderStream events
  sampled : ∀ add, .addOrder add ∈ events →
    SignedInt.int64.Fits add.quantity ∧ OnGrid profile add.price
  lastOrderId_eq : g.lastOrderId = (addIds events).length
  live_nodup : (g.live.map LiveResting.id).Nodup
  mem_live_iff : ∀ id, id ∈ g.live.map LiveResting.id ↔
    id ∈ addIds events ∧ .cancelOrder ⟨id⟩ ∉ events

theorem streamed_create (profile : MarketProfile ρ) : Streamed profile [] (create profile) where
  stream := .empty
  sampled := by simp
  lastOrderId_eq := rfl
  live_nodup := List.nodup_nil
  mem_live_iff := by simp [create, addIds]

omit [Doubles ρ] in
theorem Streamed.step {events : List InputEvent} {event : InputEvent} (h : Streamed profile events g)
    (hlength : events.length + 1 < 2 ^ 63) (hstep : Stepped profile g event g') :
    Streamed profile (events ++ [event]) g' := by
  have hle : (addIds events).length ≤ events.length := List.length_filterMap_le ..
  cases hstep with
  | @add side quantity price _ hid hlive hquantity hprice =>
    have hnext : SignedInt.int64.add g.lastOrderId 1 = (addIds events).length + 1 := by
      rw [h.lastOrderId_eq]
      exact (SignedInt.fits_int64_of_lt (by omega) (by omega)).add_eq
    rw [hnext] at hid hlive ⊢
    have hids : ∀ id, id ∈ addIds (events ++ [.addOrder ⟨(addIds events).length + 1, side, quantity,
        price, .gtc⟩]) ↔ id ∈ addIds events ∨ id = (addIds events).length + 1 := by
      intro id
      rw [addIds_append, List.mem_append]
      exact or_congr Iff.rfl List.mem_singleton
    have hnew : ((addIds events).length + 1 : Int) ∉ addIds events := by
      rw [h.stream.mem_addIds_iff]
      omega
    refine ⟨h.stream.concat_add rfl ⟨hquantity.1, hprice.pos, rfl⟩, ?_, ?_, ?_, ?_⟩
    · intro add hadd
      rcases List.mem_append.mp hadd with hadd | hadd
      · exact h.sampled add hadd
      · cases List.mem_singleton.mp hadd
        exact ⟨hquantity.2, hprice⟩
    · rw [hid, addIds_append, List.length_append]
      rfl
    · rw [hlive, List.map_append, List.nodup_append]
      refine ⟨h.live_nodup, List.nodup_singleton _, ?_⟩
      intro id hmem other hother heq
      rw [List.map_singleton, List.mem_singleton] at hother
      rw [heq, hother] at hmem
      exact hnew ((h.mem_live_iff _).mp hmem).1
    · intro id
      have hcancel : .cancelOrder ⟨id⟩ ∉ events ++ [InputEvent.addOrder ⟨(addIds events).length + 1,
          side, quantity, price, .gtc⟩] ↔ .cancelOrder ⟨id⟩ ∉ events := by
        simp
      rw [hids, hcancel, hlive, List.map_append, List.mem_append, h.mem_live_iff, List.map_singleton,
        List.mem_singleton, or_and_right]
      refine or_congr Iff.rfl ⟨fun heq => ⟨heq, fun hmem => ?_⟩, And.left⟩
      have hmem' := h.stream.added_of_cancel hmem
      rw [heq] at hmem'
      exact hnew hmem'
  | @cancel order _ hid hlive =>
    have hmem : order.id ∈ g.live.map LiveResting.id :=
      List.mem_map_of_mem (hlive.mem_iff.mpr (List.mem_cons_self ..))
    obtain ⟨hadded, hfirst⟩ := (h.mem_live_iff _).mp hmem
    have hids : addIds (events ++ [.cancelOrder ⟨order.id⟩]) = addIds events := by
      rw [addIds_append]
      exact List.append_nil _
    have hperm := hlive.map LiveResting.id
    have hnodup := hperm.nodup_iff.mp h.live_nodup
    rw [List.map_cons, List.nodup_cons] at hnodup
    refine ⟨h.stream.concat_cancel hadded hfirst, ?_, ?_, hnodup.2, ?_⟩
    · intro add hadd
      rcases List.mem_append.mp hadd with hadd | hadd
      · exact h.sampled add hadd
      · cases List.mem_singleton.mp hadd
    · rw [hid, h.lastOrderId_eq, hids]
    · intro id
      have hbefore := h.mem_live_iff id
      rw [hperm.mem_iff, List.map_cons, List.mem_cons] at hbefore
      rw [hids, List.mem_append, List.mem_singleton, InputEvent.cancelOrder.injEq,
        CancelOrderEvent.mk.injEq, not_or, ← and_assoc, ← hbefore]
      constructor
      · intro hlive
        exact ⟨Or.inr hlive, fun heq => hnodup.1 (heq ▸ hlive)⟩
      · intro hkept
        obtain ⟨hlive, hne⟩ := hkept
        exact hlive.resolve_left hne

section Generate

variable (hprofile : profile.Fits) (hqty : profile.qtyMin ≤ profile.qtyMax)
  (hround : ∀ x : ρ, SignedInt.int64.Fits (Doubles.lround x))
  (hindex : ∀ n (rng : σ), (Distributions.uniformInt ρ n rng).1 ≤ n)

include hprofile hqty hround hindex in
theorem yields_generate {events : List InputEvent} {n : Nat} (hlength : events.length + n < 2 ^ 63)
    (h : Streamed profile events g) :
    Yields (generate profile n g events : Sampling σ (List InputEvent × OrderGenerator ρ))
      fun s => Streamed profile s.1 s.2 ∧ s.1.length = events.length + n := by
  induction n generalizing g events with
  | zero => exact yields_pure ⟨h, rfl⟩
  | succ n ih =>
    rw [generate]
    refine (yields_next hprofile hqty hround hindex).bind fun s hs => ?_
    refine (ih ?_ (h.step (by omega) hs)).mono fun r hr => ⟨hr.1, ?_⟩
    · rw [List.length_append, List.length_singleton]
      omega
    · rw [hr.2, List.length_append, List.length_singleton]
      omega

end Generate

omit [Doubles ρ] in
theorem Streamed.fits {events : List InputEvent} (h : Streamed profile events g)
    (hlength : events.length < 2 ^ 63) : ∀ event ∈ events, event.Fits .int64 := by
  have hle : (addIds events).length ≤ events.length := List.length_filterMap_le ..
  have hid : ∀ id ∈ addIds events, SignedInt.int64.Fits id := by
    intro id hid
    obtain ⟨hpos, hmax⟩ := h.stream.mem_addIds_iff.mp hid
    exact SignedInt.fits_int64_of_lt hpos.le (by omega)
  intro event hevent
  cases event with
  | addOrder add =>
    obtain ⟨hquantity, hprice⟩ := h.sampled add hevent
    exact ⟨hid _ (List.mem_filterMap.mpr ⟨_, hevent, rfl⟩), hquantity, hprice.fits⟩
  | cancelOrder cancel => exact hid _ (h.stream.added_of_cancel hevent)
  | shutdown => trivial

/-! ### What is generated, if anything is -/

/-- An add or a cancel of 64-bit values. -/
def IsOrder (event : InputEvent) : Prop := event.Fits .int64 ∧ event ≠ .shutdown

/-- The ids of the live orders are 64-bit. -/
def LiveFits (g : OrderGenerator ρ) : Prop := ∀ order ∈ g.live, SignedInt.int64.Fits order.id

theorem fits_clampInt {x low high clamped : Int} (hx : SignedInt.int64.Fits x)
    (hlow : SignedInt.int64.Fits low) (hhigh : SignedInt.int64.Fits high)
    (h : clampInt x low high = some clamped) : SignedInt.int64.Fits clamped := by
  rw [clampInt] at h
  split at h
  · cases h
  · rw [Option.some.injEq] at h
    rw [← h]
    split
    · exact hlow
    · split
      · exact hhigh
      · exact hx

theorem fits_int64_of_bits32 {x : Int} (h : (SignedInt.bits 32).Fits x) : SignedInt.int64.Fits x := by
  rw [fits_bits32_iff] at h
  rw [SignedInt.fits_int64_iff]
  omega

theorem ensures_sampleQuantity (hprofile : profile.Fits)
    (hround : ∀ x : ρ, SignedInt.int64.Fits (Doubles.lround x)) :
    Ensures (sampleQuantity profile : Sampling σ Int) SignedInt.int64.Fits := by
  rw [sampleQuantity]
  refine yields_normal.ensures.bind fun z _ => ?_
  refine (ensures_lift (P := SignedInt.int64.Fits) fun clamped hclamped => ?_).bind
    fun clamped hclamped => (yields_pure ?_).ensures
  · exact fits_clampInt (hround _) (fits_int64_of_bits32 hprofile.qtyMin)
      (fits_int64_of_bits32 hprofile.qtyMax) hclamped
  · rcases max_choice clamped 1 with hmax | hmax
    · rwa [hmax]
    · rw [hmax]
      decide

theorem ensures_nextCancel (h : LiveFits g) :
    Ensures (nextCancel profile g : Sampling σ (InputEvent × OrderGenerator ρ))
      fun s => IsOrder s.1 ∧ LiveFits s.2 := by
  rw [nextCancel]
  refine Ensures.bind (P := fun _ => True) (fun _ _ _ _ => trivial) fun i _ => ?_
  refine (ensures_lift fun order horder => List.mem_of_getElem? horder).bind fun order horder => ?_
  refine (ensures_lift fun back hback => List.mem_of_getLast? hback).bind fun back hback =>
    (yields_pure ?_).ensures
  refine ⟨⟨h order horder, InputEvent.noConfusion⟩, ?_⟩
  intro o ho
  rcases List.mem_or_eq_of_mem_set (List.dropLast_subset _ ho) with hmem | heq
  · exact h o hmem
  · rw [heq]
    exact h back hback

theorem ensures_nextAdd (hprofile : profile.Fits)
    (hround : ∀ x : ρ, SignedInt.int64.Fits (Doubles.lround x)) (h : LiveFits g) (aggressiveP : ρ) :
    Ensures (nextAdd profile g aggressiveP : Sampling σ (InputEvent × OrderGenerator ρ))
      fun s => IsOrder s.1 ∧ LiveFits s.2 := by
  rw [nextAdd]
  refine yields_sampleSide.ensures.bind fun side _ => ?_
  refine (ensures_sampleQuantity hprofile hround).bind fun quantity hquantity => ?_
  refine (yields_samplePrice hprofile hround side aggressiveP).ensures.bind fun price hprice =>
    (yields_pure ?_).ensures
  have hid := SignedInt.fits_wrap .int64 (g.lastOrderId + 1)
  refine ⟨⟨⟨hid, hquantity, hprice.fits⟩, InputEvent.noConfusion⟩, ?_⟩
  intro order horder
  rcases List.mem_append.mp horder with hlive | hnew
  · exact h order hlive
  · rw [List.mem_singleton.mp hnew]
    exact hid

theorem ensures_next (hprofile : profile.Fits)
    (hround : ∀ x : ρ, SignedInt.int64.Fits (Doubles.lround x)) (h : LiveFits g) :
    Ensures (next profile g : Sampling σ (InputEvent × OrderGenerator ρ))
      fun s => IsOrder s.1 ∧ LiveFits s.2 := by
  rw [next]
  refine yields_stepHeat.ensures.bind fun g₁ hg₁ => yields_normal.ensures.bind fun z _ => ?_
  have hlive : ∀ logMid : ρ, LiveFits { g₁ with logMid } := fun _ order horder =>
    h order (hg₁.2 ▸ horder)
  refine ensures_ite (fun _ => ensures_nextAdd hprofile hround (hlive _) _) fun _ => ?_
  refine yields_uniform.ensures.bind fun u _ => ensures_ite (fun _ => ?_) fun _ => ?_
  · exact ensures_nextCancel (hlive _)
  · exact ensures_nextAdd hprofile hround (hlive _) _

/-- Whatever the profile, a run of calls that returns has made `n` adds and cancels. -/
theorem ensures_generate (hprofile : profile.Fits)
    (hround : ∀ x : ρ, SignedInt.int64.Fits (Doubles.lround x)) (n : Nat) {events : List InputEvent}
    (h : LiveFits g) (hevents : ∀ event ∈ events, IsOrder event) :
    Ensures (generate profile n g events : Sampling σ (List InputEvent × OrderGenerator ρ))
      fun s => s.1.length = events.length + n ∧ ∀ event ∈ s.1, IsOrder event := by
  induction n generalizing g events with
  | zero => exact (yields_pure ⟨rfl, hevents⟩).ensures
  | succ n ih =>
    rw [generate]
    refine (ensures_next hprofile hround h).bind fun s hs => (ih hs.2 ?_).mono fun r hr => ⟨?_, hr.2⟩
    · intro event hevent
      rcases List.mem_append.mp hevent with hbefore | hnew
      · exact hevents event hbefore
      · rw [List.mem_singleton.mp hnew]
        exact hs.1
    · rw [hr.1, List.length_append, List.length_singleton]
      omega

/-- **The generator and the book.** For any draws, `n` calls of `next` succeed, so that each sampled
index is within the live orders. The ids of the adds are 1, 2, 3, …, their quantities are positive and
their prices positive multiples of the tick, and no cancel names an order that is not yet added or that
has been cancelled. Fed to an empty book, no add is rejected, and a cancel is answered with UNK if its
order has been filled and with what is left of it otherwise. -/
theorem generate_answers (hprofile : profile.Fits) (hqty : profile.qtyMin ≤ profile.qtyMax)
    (hround : ∀ x : ρ, SignedInt.int64.Fits (Doubles.lround x))
    (hindex : ∀ n (rng : σ), (Distributions.uniformInt ρ n rng).1 ≤ n) (n : Nat) (hn : n < 2 ^ 63)
    (rng : σ) :
    ∃ events g rng', generate profile n (create profile) [] rng = some ((events, g), rng') ∧
      events.length = n ∧ .shutdown ∉ events ∧
      addIds events = (List.range (addIds events).length).map (fun i : Nat => (i : Int) + 1) ∧
      (∀ add, .addOrder add ∈ events →
        1 ≤ add.quantity ∧ 0 < add.price ∧ max profile.tickSize 1 ∣ add.price) ∧
      (∀ before cancel after, events = before ++ .cancelOrder cancel :: after →
        cancel.orderId ∈ addIds before ∧ .cancelOrder cancel ∉ before) ∧
      ∀ before event after, events = before ++ event :: after →
        ∃ c₀ emitted₀ c₁ emitted₁, Clob.run .int64 {} before = .ok (c₀, emitted₀) ∧
          c₀.onInput .int64 event = .ok (c₁, emitted₁) ∧
          (∀ add, event = .addOrder add → ∀ rejection, .orderRejected rejection ∉ emitted₁) ∧
          ∀ cancel, event = .cancelOrder cancel →
            ((∃ filled, .orderFilled ⟨cancel.orderId, filled⟩ ∈ emitted₀) →
              emitted₁ = [.orderRejected ⟨cancel.orderId, .unknownOrderId⟩]) ∧
            ((∀ filled, .orderFilled ⟨cancel.orderId, filled⟩ ∉ emitted₀) →
              ∃ o ∈ c₀.restingOrders .buy ++ c₀.restingOrders .sell, o.orderId = cancel.orderId ∧
                emitted₁ = [.orderCancelled ⟨cancel.orderId, 0, o.quantity, .userRequest⟩]) := by
  obtain ⟨⟨events, g⟩, rng', hrun, h, hlength⟩ :=
    yields_generate hprofile hqty hround hindex (show ([] : List InputEvent).length + n < 2 ^ 63 by
      simpa using hn) (streamed_create profile) rng
  rw [List.length_nil, Nat.zero_add] at hlength
  refine ⟨events, g, rng', hrun, hlength, h.stream.not_shutdown, h.stream.addIds_eq, ?_,
    h.stream.cancels, ?_⟩
  · intro add hadd
    obtain ⟨-, hprice⟩ := h.sampled add hadd
    exact ⟨(h.stream.adds add hadd).1, hprice.pos, hprice.dvd⟩
  · intro before event after hsplit
    exact h.stream.answers (h.fits (hlength ▸ hn)) hsplit

/-- Decimals, with `exp` and `log` where the run below takes them. -/
instance : Doubles ℚ where
  ofInt x := x
  lt x y := x < y
  le x y := x ≤ y
  exp _ := 1
  log x := if x = 1 then 0 else -0.6931471805599453
  ceil x := x.ceil
  lround x := if SignedInt.int64.Fits (x + 1 / 2).floor then (x + 1 / 2).floor else 0

/-- Draws from the middle of each distribution. -/
instance : Distributions ℚ Unit where
  uniform _ := (1 / 2, ())
  normal _ := (0, ())
  uniformInt _ _ := (0, ())

/-- A market that stands still at its first price. -/
def stillMarket : MarketProfile ℚ where
  numOrders := 2
  cancelRatio := 0.9
  aggressiveRatio := 0
  aggressionSpreadK := 0
  buyBias := 0.6
  mu := 0
  sigma := 0
  initialMid := 1
  tickSize := 1
  placeDecay := 1
  qtyLogMean := 0
  qtyLogStddev := 0
  qtyMin := 1
  qtyMax := 10
  sideAutocorr := -1
  cancelDepthLambda := 0
  heatMean := 0
  heatKappa := 0
  heatSigma := 0
  hotCancelMul := 1
  hotAggressiveMul := 1
  hotSigmaMul := 1
  hotHalfSpreadExtraTicks := 0
  baseHalfSpreadTicks := 1
  spreadAsymTicks := 0

example : ((generate stillMarket 2 (create stillMarket) [] ()).map fun s => s.1.1)
    = some [.addOrder ⟨1, .buy, 1, 1, .gtc⟩, .cancelOrder ⟨1⟩] := by
  decide +kernel

theorem fits_lround_rat (x : ℚ) : SignedInt.int64.Fits (Doubles.lround x) := by
  simp only [Doubles.lround]
  split
  · assumption
  · decide +kernel

theorem fits_stillMarket : stillMarket.Fits :=
  ⟨by decide +kernel, by decide +kernel, by decide +kernel, by decide +kernel, by decide +kernel,
    by decide +kernel, by decide +kernel⟩

/-- An add and its cancel. -/
theorem generate_answers_still :
    ∃ events g rng', generate stillMarket 2 (create stillMarket) [] () = some ((events, g), rng') ∧
      events.length = 2 ∧ .shutdown ∉ events ∧
      addIds events = (List.range (addIds events).length).map (fun i : Nat => (i : Int) + 1) ∧
      (∀ add, .addOrder add ∈ events →
        1 ≤ add.quantity ∧ 0 < add.price ∧ max stillMarket.tickSize 1 ∣ add.price) ∧
      (∀ before cancel after, events = before ++ .cancelOrder cancel :: after →
        cancel.orderId ∈ addIds before ∧ .cancelOrder cancel ∉ before) ∧
      ∀ before event after, events = before ++ event :: after →
        ∃ c₀ emitted₀ c₁ emitted₁, Clob.run .int64 {} before = .ok (c₀, emitted₀) ∧
          c₀.onInput .int64 event = .ok (c₁, emitted₁) ∧
          (∀ add, event = .addOrder add → ∀ rejection, .orderRejected rejection ∉ emitted₁) ∧
          ∀ cancel, event = .cancelOrder cancel →
            ((∃ filled, .orderFilled ⟨cancel.orderId, filled⟩ ∈ emitted₀) →
              emitted₁ = [.orderRejected ⟨cancel.orderId, .unknownOrderId⟩]) ∧
            ((∀ filled, .orderFilled ⟨cancel.orderId, filled⟩ ∉ emitted₀) →
              ∃ o ∈ c₀.restingOrders .buy ++ c₀.restingOrders .sell, o.orderId = cancel.orderId ∧
                emitted₁ = [.orderCancelled ⟨cancel.orderId, 0, o.quantity, .userRequest⟩]) := by
  exact generate_answers fits_stillMarket (by decide) fits_lround_rat (fun _ _ => Nat.zero_le _) 2
    (by decide) ()

end OrderGenerator

end MatchingEngine
