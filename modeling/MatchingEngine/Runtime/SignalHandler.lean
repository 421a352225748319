import MatchingEngine.Model.SignalHandler
import Mathlib.Data.List.Nodup

/-!
# Nested guards put the handlers back

What guards are for is told by a list of the installations, the newest first: a signal has the handler of
its newest installation, or the one that it had at first. The program keeps no such list. It is threaded
through the guards, each of which keeps the handler that it has displaced. As long as a guard is released
only while its installation is the newest of its signal the two agree, wherever guards are moved to.
-/

namespace MatchingEngine

variable {ι η : Type*}

/-- A handler that has been installed, and where the guard is that will take it back. -/
structure Installation (ι η : Type*) where
  place : ι
  signum : Int
  handler : η

/-- The handler that a signal has by these installations. -/
def inForce (original : Int → η) : List (Installation ι η) → Int → η
  | [], signum => original signum
  | i :: older, signum => if i.signum = signum then i.handler else inForce original older signum

/-- The guard at a place gives up its installation, which is the newest of its signal, if it has one. -/
inductive Releases (x : ι) : List (Installation ι η) → List (Installation ι η) → Prop
  | idle {installed : List (Installation ι η)} (hnone : ∀ i ∈ installed, i.place ≠ x) :
      Releases x installed installed
  | newest {newer older : List (Installation ι η)} {i : Installation ι η} (hplace : i.place = x)
      (hnewest : ∀ j ∈ newer, j.signum ≠ i.signum) : Releases x (newer ++ i :: older) (newer ++ older)

theorem Releases.head {x : ι} {older : List (Installation ι η)} {i : Installation ι η}
    (hplace : i.place = x) : Releases x (i :: older) older :=
  @Releases.newest ι η x [] older i hplace nofun

section Nested

variable [DecidableEq ι]

/-- The installation with its guard, if that is at `other`, moved to `x`. -/
def Installation.move (x other : ι) (i : Installation ι η) : Installation ι η :=
  if i.place = other then { i with place := x } else i

/-- A use of guards whose lifetimes are nested, signal by signal. -/
inductive Nests (catchable : Int → Bool) :
    List (Installation ι η) → GuardOp ι η → List (Installation ι η) → Prop
  | create {installed : List (Installation ι η)} {x : ι} : Nests catchable installed (.create x) installed
  | install {installed : List (Installation ι η)} {x : ι} {signum : Int} {handler : η}
      (hcatchable : catchable signum = true) :
      Nests catchable installed (.install x signum handler) (⟨x, signum, handler⟩ :: installed)
  | refused {installed : List (Installation ι η)} {x : ι} {signum : Int} {handler : η}
      (hcatchable : catchable signum = false) :
      Nests catchable installed (.install x signum handler) installed
  | moveConstruct {installed : List (Installation ι η)} {x other : ι} :
      Nests catchable installed (.moveConstruct x other) (installed.map (Installation.move x other))
  | moveSelf {installed : List (Installation ι η)} {x : ι} :
      Nests catchable installed (.moveAssign x x) installed
  | moveAssign {installed left : List (Installation ι η)} {x other : ι} (hne : x ≠ other)
      (hreleases : Releases x installed left) :
      Nests catchable installed (.moveAssign x other) (left.map (Installation.move x other))
  | destroy {installed left : List (Installation ι η)} {x : ι} (hreleases : Releases x installed left) :
      Nests catchable installed (.destroy x) left

inductive NestsAll (catchable : Int → Bool) :
    List (Installation ι η) → List (GuardOp ι η) → List (Installation ι η) → Prop
  | nil {installed : List (Installation ι η)} : NestsAll catchable installed [] installed
  | cons {installed next last : List (Installation ι η)} {op : GuardOp ι η} {ops : List (GuardOp ι η)}
      (hop : Nests catchable installed op next) (hops : NestsAll catchable next ops last) :
      NestsAll catchable installed (op :: ops) last

end Nested

/-! ### What is in force -/

section InForce

variable {original : Int → η} {newer older : List (Installation ι η)} {i : Installation ι η}

theorem inForce_cons (i : Installation ι η) (older : List (Installation ι η)) :
    inForce original (i :: older) = Function.update (inForce original older) i.signum i.handler := by
  funext signum
  rw [inForce, Function.update_apply]
  by_cases heq : i.signum = signum
  · rw [if_pos heq, if_pos heq.symm]
  · rw [if_neg heq, if_neg fun hsame => heq hsame.symm]

/-- Other signals do not see an installation. -/
theorem inForce_remove_of_ne {signum : Int} (hne : i.signum ≠ signum) :
    inForce original (newer ++ i :: older) signum = inForce original (newer ++ older) signum := by
  induction newer with
  | nil => rw [List.nil_append, List.nil_append, inForce, if_neg hne]
  | cons j newer ih => rw [List.cons_append, List.cons_append, inForce, inForce, ih]

/-- With the handler that it has displaced put back, the newest installation of a signal is gone. -/
theorem inForce_remove (hnewest : ∀ j ∈ newer, j.signum ≠ i.signum) :
    Function.update (inForce original (newer ++ i :: older)) i.signum (inForce original older i.signum)
      = inForce original (newer ++ older) := by
  funext signum
  rw [Function.update_apply]
  by_cases heq : signum = i.signum
  · rw [if_pos heq, heq]
    induction newer with
    | nil => rfl
    | cons j newer ih =>
      rw [List.cons_append, inForce, if_neg (hnewest j (List.mem_cons_self ..))]
      exact ih fun k hk => hnewest k (List.mem_cons_of_mem _ hk)
  · rw [if_neg heq, inForce_remove_of_ne fun hsame => heq hsame.symm]

theorem inForce_map_move [DecidableEq ι] (x other : ι) (installed : List (Installation ι η)) :
    inForce original (installed.map (Installation.move x other)) = inForce original installed := by
  induction installed with
  | nil => rfl
  | cons i older ih =>
    rw [List.map_cons, inForce_cons, inForce_cons, ih]
    have hsame : (i.move x other).signum = i.signum ∧ (i.move x other).handler = i.handler := by
      rw [Installation.move]
      split <;> exact ⟨rfl, rfl⟩
    rw [hsame.1, hsame.2]

end InForce

/-! ### The thread through the guards -/

/-- The guard of each installation keeps the handler that this has displaced. -/
def Threaded (original : Int → η) (guards : ι → Option (SignalGuard η)) :
    List (Installation ι η) → Prop
  | [] => True
  | i :: older =>
    guards i.place = some ⟨i.signum, inForce original older i.signum, true⟩ ∧
      Threaded original guards older

namespace Threaded

variable {original : Int → η} {guards guards' : ι → Option (SignalGuard η)}
  {installed newer older : List (Installation ι η)} {i : Installation ι η}

theorem congr (h : Threaded original guards installed)
    (hsame : ∀ i ∈ installed, guards' i.place = guards i.place) : Threaded original guards' installed := by
  induction installed with
  | nil => trivial
  | cons i older ih =>
    refine ⟨?_, ih h.2 fun j hj => hsame j (List.mem_cons_of_mem _ hj)⟩
    rw [hsame i (List.mem_cons_self ..)]
    exact h.1

theorem guard_eq (h : Threaded original guards (newer ++ i :: older)) :
    guards i.place = some ⟨i.signum, inForce original older i.signum, true⟩ := by
  induction newer with
  | nil => exact h.1
  | cons j newer ih => exact ih h.2

theorem remove (h : Threaded original guards (newer ++ i :: older))
    (hnewest : ∀ j ∈ newer, j.signum ≠ i.signum) : Threaded original guards (newer ++ older) := by
  induction newer with
  | nil => exact h.2
  | cons j newer ih =>
    obtain ⟨hguard, hrest⟩ := h
    refine ⟨?_, ih hrest fun k hk => hnewest k (List.mem_cons_of_mem _ hk)⟩
    change guards j.place = some ⟨j.signum, inForce original (newer ++ older) j.signum, true⟩
    rw [← inForce_remove_of_ne fun hsame => hnewest j (List.mem_cons_self ..) hsame.symm]
    exact hguard

/-- A guard that is moved takes its part of the thread along. -/
theorem move [DecidableEq ι] {x other : ι} {source : SignalGuard η} (h : Threaded original guards installed)
    (hsource : guards other = some source) (hx : guards' x = some source)
    (hothers : ∀ y, y ≠ x → y ≠ other → guards' y = guards y) (hfree : ∀ i ∈ installed, i.place ≠ x) :
    Threaded original guards' (installed.map (Installation.move x other)) := by
  induction installed with
  | nil => trivial
  | cons i older ih =>
    refine ⟨?_, ih h.2 fun j hj => hfree j (List.mem_cons_of_mem _ hj)⟩
    have hguard := h.1
    rw [inForce_map_move]
    by_cases hplace : i.place = other
    · rw [hplace, hsource] at hguard
      simp only [Installation.move, if_pos hplace]
      rw [hx, hguard]
    · simp only [Installation.move, if_neg hplace]
      rw [hothers _ (hfree i (List.mem_cons_self ..)) hplace, hguard]

end Threaded

/-! ### The invariant -/

/-- The handlers are those in force, and the active guards are those of the installations. -/
structure Guarded (catchable : Int → Bool) (original : Int → η) (installed : List (Installation ι η))
    (handlers : Int → η) (guards : ι → Option (SignalGuard η)) : Prop where
  handlers_eq : handlers = inForce original installed
  threaded : Threaded original guards installed
  active : ∀ x guard, guards x = some guard → guard.active = true → ∃ i ∈ installed, i.place = x
  nodup : (installed.map Installation.place).Nodup
  catchable : ∀ i ∈ installed, catchable i.signum = true

namespace Guarded

variable {catchable : Int → Bool} {sigDfl : η} {original handlers : Int → η}
  {guards : ι → Option (SignalGuard η)} {installed left newer older : List (Installation ι η)} {x other : ι}

theorem initial (catchable : Int → Bool) (original : Int → η) :
    Guarded (ι := ι) catchable original [] original fun _ => none where
  handlers_eq := rfl
  threaded := trivial
  active := nofun
  nodup := List.nodup_nil
  catchable := nofun

/-- A place without a guard has no installation. -/
theorem free_of_none (h : Guarded catchable original installed handlers guards) (hx : guards x = none) :
    ∀ i ∈ installed, i.place ≠ x := by
  rintro i hi rfl
  obtain ⟨newer, older, rfl⟩ := List.append_of_mem hi
  rw [h.threaded.guard_eq] at hx
  cases hx

variable [DecidableEq ι]

/-- A place that has no installation may get any guard that is not active, or none. -/
theorem put (h : Guarded catchable original installed handlers guards)
    (hfree : ∀ i ∈ installed, i.place ≠ x) {put : Option (SignalGuard η)}
    (hput : ∀ guard, put = some guard → guard.active = false) :
    Guarded catchable original installed handlers (Function.update guards x put) where
  handlers_eq := h.handlers_eq
  threaded := h.threaded.congr fun i hi => Function.update_of_ne (hfree i hi) ..
  active y guard hguard hactive := by
    by_cases hy : y = x
    · subst hy
      rw [Function.update_self] at hguard
      rw [hput guard hguard] at hactive
      cases hactive
    · rw [Function.update_of_ne hy] at hguard
      exact h.active y guard hguard hactive
  nodup := h.nodup
  catchable := h.catchable

/-- The newest installation of a signal is taken back, and its guard is gone. -/
theorem remove {i : Installation ι η}
    (h : Guarded catchable original (newer ++ i :: older) handlers guards)
    (hnewest : ∀ j ∈ newer, j.signum ≠ i.signum) (hfree : ∀ j ∈ newer ++ older, j.place ≠ i.place) :
    Guarded catchable original (newer ++ older)
      (Function.update handlers i.signum (inForce original older i.signum))
      (Function.update guards i.place none) where
  handlers_eq := by rw [h.handlers_eq, inForce_remove hnewest]
  threaded := (h.threaded.remove hnewest).congr fun j hj => Function.update_of_ne (hfree j hj) ..
  active y guard hguard hactive := by
    have hy : y ≠ i.place := by
      rintro rfl
      rw [Function.update_self] at hguard
      cases hguard
    rw [Function.update_of_ne hy] at hguard
    obtain ⟨j, hj, rfl⟩ := h.active y guard hguard hactive
    rw [List.mem_append, List.mem_cons] at hj
    rcases hj with hj | rfl | hj
    · exact ⟨j, List.mem_append_left _ hj, rfl⟩
    · exact absurd rfl hy
    · exact ⟨j, List.mem_append_right _ hj, rfl⟩
  nodup := by
    have hnodup := h.nodup
    rw [List.map_append, List.map_cons, List.nodup_middle, List.nodup_cons, ← List.map_append] at hnodup
    exact hnodup.2
  catchable j hj := by
    apply h.catchable j
    rw [List.mem_append] at hj
    rw [List.mem_append, List.mem_cons]
    exact hj.imp id Or.inr

/-- Behind a release the place has no installation. -/
theorem release {guard : SignalGuard η} (h : Guarded catchable original installed handlers guards)
    (hx : guards x = some guard) (hreleases : Releases x installed left) {put : Option (SignalGuard η)}
    (hput : ∀ guard, put = some guard → guard.active = false) :
    Guarded catchable original left (guard.release catchable handlers).2 (Function.update guards x put) ∧
      ∀ i ∈ left, i.place ≠ x := by
  cases hreleases with
  | idle hnone =>
    have hactive : guard.active = false := by
      by_contra hactive
      obtain ⟨i, hi, hplace⟩ := h.active x guard hx (by simpa using hactive)
      exact hnone i hi hplace
    rw [SignalGuard.release, if_neg (by simp [hactive])]
    exact ⟨h.put hnone hput, hnone⟩
  | @newest newer older i hplace hnewest =>
    subst hplace
    obtain rfl := Option.some.inj (hx.symm.trans h.threaded.guard_eq)
    have hnodup := h.nodup
    rw [List.map_append, List.map_cons, List.nodup_middle, List.nodup_cons, ← List.map_append] at hnodup
    have hfree : ∀ j ∈ newer ++ older, j.place ≠ i.place := fun j hj heq =>
      hnodup.1 (heq ▸ List.mem_map_of_mem hj)
    rw [SignalGuard.release, if_pos rfl, setHandler, if_pos (h.catchable i (by simp))]
    have hremoved := (h.remove hnewest hfree).put hfree hput
    rw [Function.update_idem] at hremoved
    exact ⟨hremoved, hfree⟩

/-- An installation goes with its guard. -/
theorem move {source : SignalGuard η} (h : Guarded catchable original installed handlers guards)
    (hother : guards other = some source) (hne : x ≠ other) (hfree : ∀ i ∈ installed, i.place ≠ x) :
    Guarded catchable original (installed.map (Installation.move x other)) handlers
      (Function.update (Function.update guards other (some { source with active := false, signum := -1 }))
        x (some source)) where
  handlers_eq := by rw [inForce_map_move, h.handlers_eq]
  threaded := by
    refine h.threaded.move hother (Function.update_self ..) (fun y hy hy' => ?_) hfree
    rw [Function.update_of_ne hy, Function.update_of_ne hy']
  active y guard hguard hactive := by
    by_cases hy : y = x
    · subst hy
      rw [Function.update_self] at hguard
      obtain rfl := Option.some.inj hguard
      obtain ⟨i, hi, hplace⟩ := h.active other source hother hactive
      refine ⟨_, List.mem_map_of_mem hi, ?_⟩
      rw [Installation.move, if_pos hplace]
    · rw [Function.update_of_ne hy] at hguard
      by_cases hy' : y = other
      · subst hy'
        rw [Function.update_self] at hguard
        obtain rfl := Option.some.inj hguard
        cases hactive
      · rw [Function.update_of_ne hy'] at hguard
        obtain ⟨i, hi, hplace⟩ := h.active y guard hguard hactive
        refine ⟨_, List.mem_map_of_mem hi, ?_⟩
        rw [Installation.move, if_neg (hplace ▸ hy'), hplace]
  nodup := by
    rw [List.map_map]
    refine (List.nodup_map_iff_inj_on (List.Nodup.of_map _ h.nodup)).mpr fun i hi j hj heq => ?_
    apply List.inj_on_of_nodup_map h.nodup hi hj
    simp only [Function.comp, Installation.move] at heq
    by_cases hi' : i.place = other
    · by_cases hj' : j.place = other
      · rw [hi', hj']
      · rw [if_pos hi', if_neg hj'] at heq
        exact absurd heq.symm (hfree j hj)
    · by_cases hj' : j.place = other
      · rw [if_neg hi', if_pos hj'] at heq
        exact absurd heq (hfree i hi)
      · rwa [if_neg hi', if_neg hj'] at heq
  catchable i hi := by
    obtain ⟨j, hj, rfl⟩ := List.mem_map.mp hi
    have hsame : (j.move x other).signum = j.signum := by
      rw [Installation.move]
      split <;> rfl
    rw [hsame]
    exact h.catchable j hj

/-- A new installation keeps the handler that it displaces. -/
theorem install {signum : Int} (h : Guarded catchable original installed handlers guards)
    (hcatchable : catchable signum = true) (hfree : ∀ i ∈ installed, i.place ≠ x) (handler : η) :
    Guarded catchable original (⟨x, signum, handler⟩ :: installed) (Function.update handlers signum handler)
      (Function.update guards x (some ⟨signum, handlers signum, true⟩)) where
  handlers_eq := by rw [inForce_cons, h.handlers_eq]
  threaded := by
    refine ⟨?_, h.threaded.congr fun i hi => Function.update_of_ne (hfree i hi) ..⟩
    rw [Function.update_self, h.handlers_eq]
  active y guard hguard hactive := by
    by_cases hy : y = x
    · exact ⟨_, List.mem_cons_self .., hy.symm⟩
    · rw [Function.update_of_ne hy] at hguard
      obtain ⟨i, hi, hplace⟩ := h.active y guard hguard hactive
      exact ⟨i, List.mem_cons_of_mem _ hi, hplace⟩
  nodup := by
    rw [List.map_cons, List.nodup_cons]
    refine ⟨fun hmem => ?_, h.nodup⟩
    obtain ⟨i, hi, hplace⟩ := List.mem_map.mp hmem
    exact hfree i hi hplace
  catchable i hi := by
    rcases List.mem_cons.mp hi with rfl | hi
    · exact hcatchable
    · exact h.catchable i hi

/-- **One use of guards.** -/
theorem step {s s' : SignalState ι η} (h : Guarded catchable original installed s.handlers s.guards)
    {op : GuardOp ι η} (hstep : s.step catchable sigDfl op = some s')
    (hnests : Nests catchable installed op left) :
    Guarded catchable original left s'.handlers s'.guards := by
  have hinitial : ∀ guard, some (SignalGuard.initial sigDfl) = some guard → guard.active = false := by
    rintro _ ⟨⟩
    rfl
  have hgone : ∀ guard : SignalGuard η, none = some guard → guard.active = false := nofun
  cases hnests with
  | @create x =>
    cases hx : s.guards x with
    | some guard => simp [SignalState.step, hx] at hstep
    | none =>
      simp only [SignalState.step, hx, Option.some.injEq] at hstep
      subst hstep
      exact h.put (h.free_of_none hx) hinitial
  | @install x signum handler hcatchable =>
    cases hx : s.guards x with
    | some guard => simp [SignalState.step, hx] at hstep
    | none =>
      simp only [SignalState.step, hx, SignalGuard.install, setHandler, if_pos hcatchable,
        Option.some.injEq] at hstep
      subst hstep
      exact h.install hcatchable (h.free_of_none hx) handler
  | @refused x signum handler hcatchable =>
    cases hx : s.guards x with
    | some guard => simp [SignalState.step, hx] at hstep
    | none =>
      simp only [SignalState.step, hx, SignalGuard.install, setHandler, hcatchable, Bool.false_eq_true,
        if_false, Option.some.injEq] at hstep
      subst hstep
      exact h.put (h.free_of_none hx) hinitial
  | @moveConstruct x other =>
    cases hx : s.guards x with
    | some guard => simp [SignalState.step, hx] at hstep
    | none =>
      cases hother : s.guards other with
      | none => simp [SignalState.step, hx, hother] at hstep
      | some source =>
        simp only [SignalState.step, hx, hother, Option.some.injEq] at hstep
        subst hstep
        refine h.move hother ?_ (h.free_of_none hx)
        rintro rfl
        rw [hx] at hother
        cases hother
  | @moveSelf x =>
    cases hx : s.guards x with
    | none => simp [SignalState.step, hx] at hstep
    | some guard =>
      simp only [SignalState.step, hx, if_true, Option.some.injEq] at hstep
      rwa [← hstep]
  | @moveAssign _ x other hne hreleases =>
    cases hx : s.guards x with
    | none => simp [SignalState.step, hx] at hstep
    | some guard =>
      cases hother : s.guards other with
      | none => simp [SignalState.step, hx, hother] at hstep
      | some source =>
        simp only [SignalState.step, hx, hother, if_neg hne, Option.some.injEq] at hstep
        subst hstep
        obtain ⟨hreleased, hfree⟩ := h.release hx hreleases hgone
        have hother' : Function.update s.guards x none other = some source := by
          rwa [Function.update_of_ne hne.symm]
        have hmoved := hreleased.move hother' hne hfree
        rwa [Function.update_comm hne, Function.update_idem] at hmoved
  | @destroy _ x hreleases =>
    cases hx : s.guards x with
    | none => simp [SignalState.step, hx] at hstep
    | some guard =>
      simp only [SignalState.step, hx, Option.some.injEq] at hstep
      subst hstep
      exact (h.release hx hreleases hgone).1

theorem run {s s' : SignalState ι η} (h : Guarded catchable original installed s.handlers s.guards)
    {ops : List (GuardOp ι η)} (hrun : s.run catchable sigDfl ops = some s')
    (hnests : NestsAll catchable installed ops left) :
    Guarded catchable original left s'.handlers s'.guards := by
  induction hnests generalizing s with
  | nil =>
    obtain rfl := Option.some.inj hrun
    exact h
  | cons hop _ ih =>
    rw [SignalState.run] at hrun
    obtain ⟨s₁, hstep, hrun⟩ := Option.bind_eq_some_iff.mp hrun
    exact ih (h.step hstep hop) hrun

end Guarded

/-- **Nested guards put the handlers back.** In any use of guards whose lifetimes are nested signal by
signal, wherever they are moved, a signal has the handler of its newest installation; and when no guard is
active any more every signal has the handler that it had at first. -/
theorem run_guarded [DecidableEq ι] {catchable : Int → Bool} {sigDfl : η} {original : Int → η}
    {ops : List (GuardOp ι η)} {s : SignalState ι η}
    (hrun : SignalState.run catchable sigDfl ⟨original, fun _ => none⟩ ops = some s)
    {installed : List (Installation ι η)} (hnests : NestsAll catchable [] ops installed) :
    s.handlers = inForce original installed ∧
      ((∀ x guard, s.guards x = some guard → guard.active = false) → s.handlers = original) := by
  have hguarded := (Guarded.initial catchable original).run hrun hnests
  refine ⟨hguarded.handlers_eq, fun hinactive => ?_⟩
  cases installed with
  | nil => exact hguarded.handlers_eq
  | cons i older =>
    have hactive := hinactive i.place _ hguarded.threaded.1
    cases hactive

/-- A second handler for SIGINT whose guard is moved, and the first one's guard moved over one of SIGTERM. -/
theorem run_guarded_moved :
    ∃ s, SignalState.run (fun _ => true) SignalHandler.sigDfl ⟨fun _ => .sigIgn, fun _ => none⟩
        [.install 0 sigint .requestStop, .install 1 sigint (.other 7), .install 2 sigterm .requestStop,
          .moveConstruct 3 1, .moveAssign 2 0, .destroy 1, .destroy 3, .destroy 0, .destroy 2] = some s ∧
      s.handlers = fun _ => SignalHandler.sigIgn := by
  have hnests : NestsAll (fun _ => true) [] [.install 0 sigint SignalHandler.requestStop,
      .install 1 sigint (.other 7), .install 2 sigterm .requestStop, .moveConstruct 3 1, .moveAssign 2 0,
      .destroy 1, .destroy 3, .destroy 0, .destroy 2] [] :=
    .cons (.install rfl) <| .cons (.install rfl) <| .cons (.install rfl) <| .cons .moveConstruct <|
      .cons (.moveAssign (by decide) (.head rfl)) <| .cons (.destroy (.idle (by decide))) <|
      .cons (.destroy (.head rfl)) <| .cons (.destroy (.idle (by decide))) <|
      .cons (.destroy (.head rfl)) .nil
  exact ⟨_, rfl, (run_guarded rfl hnests).1⟩

/-! ### The guards of the program -/

/-- What `make_stop_source_signal_guards` has installed. -/
def stopSourceInstallations {ι : Type*} : List (Installation (GuardPlace ι) SignalHandler) :=
  [⟨.inl .sigterm, sigterm, .requestStop⟩, ⟨.inl .sigint, sigint, .requestStop⟩]

/-- **The guards of the program.** However guards are used while those of the program are alive, if their
lifetimes are nested then SIGINT and SIGTERM request a stop, unless a guard has installed something newer,
and when the guards of the program are destroyed every signal has the handler that it had at first. -/
theorem run_stopSourceGuards {ι : Type*} [DecidableEq ι] {catchable : Int → Bool}
    (hsigint : catchable sigint = true) (hsigterm : catchable sigterm = true)
    {original : Int → SignalHandler} {body : List (GuardOp (GuardPlace ι) SignalHandler)}
    {newer : List (Installation (GuardPlace ι) SignalHandler)}
    (hbody : NestsAll catchable stopSourceInstallations body (newer ++ stopSourceInstallations))
    {s : SignalState (GuardPlace ι) SignalHandler}
    (hrun : SignalState.run catchable .sigDfl ⟨original, fun _ => none⟩
      (makeStopSourceSignalGuards ++ body) = some s) :
    (∀ signum, signum = sigint ∨ signum = sigterm → (∀ i ∈ newer, i.signum ≠ signum) →
      s.handlers signum = .requestStop) ∧
    (newer = [] → ∃ s', s.run catchable .sigDfl destroyStopSourceSignalGuards = some s' ∧
      s'.handlers = original) := by
  have hmade : NestsAll catchable [] (makeStopSourceSignalGuards ++ body) (newer ++ stopSourceInstallations) :=
    .cons (.install hsigint) (.cons (.install hsigterm) hbody)
  have hguarded := (Guarded.initial catchable original).run hrun hmade
  refine ⟨fun signum hsignum hnewer => ?_, fun hnil => ?_⟩
  · rw [hguarded.handlers_eq]
    clear hbody hmade hguarded hrun
    induction newer with
    | nil => rcases hsignum with rfl | rfl <;> rfl
    | cons i newer ih =>
      rw [List.cons_append, inForce, if_neg (hnewer i (List.mem_cons_self ..))]
      exact ih fun j hj => hnewer j (List.mem_cons_of_mem _ hj)
  · subst hnil
    obtain ⟨hterm, hint, -⟩ := hguarded.threaded
    have hdestroyed : NestsAll catchable stopSourceInstallations
        (destroyStopSourceSignalGuards (ι := ι)) [] :=
      .cons (.destroy (.head rfl)) (.cons (.destroy (.head rfl)) .nil)
    obtain ⟨s', hrun'⟩ : ∃ s', s.run catchable .sigDfl destroyStopSourceSignalGuards = some s' := by
      simp [destroyStopSourceSignalGuards, SignalState.run, SignalState.step, hterm, hint]
    exact ⟨s', hrun', (hguarded.run hrun' hdestroyed).handlers_eq⟩

/-- SIGINT is ignored for a while. -/
theorem run_stopSourceGuards_ignored :
    ∃ s, SignalState.run (fun _ => true) .sigDfl ⟨fun _ => SignalHandler.sigDfl, fun _ => none⟩
        (makeStopSourceSignalGuards ++ [.install (.inr 0) sigint .sigIgn, .destroy (.inr 0)]) = some s ∧
      s.handlers sigint = .requestStop ∧
      ∃ s', s.run (fun _ => true) .sigDfl destroyStopSourceSignalGuards = some s' ∧
        s'.handlers = fun _ => SignalHandler.sigDfl := by
  have hbody : NestsAll (fun _ => true) stopSourceInstallations
      [.install (.inr 0) sigint .sigIgn, .destroy (.inr 0)] ([] ++ stopSourceInstallations) :=
    .cons (.install rfl) <| .cons (.destroy (.head rfl)) .nil
  obtain ⟨hstop, hrestored⟩ := run_stopSourceGuards rfl rfl hbody rfl
  exact ⟨_, rfl, hstop sigint (Or.inl rfl) nofun, hrestored rfl⟩

end MatchingEngine
