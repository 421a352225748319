import Mathlib.Logic.Function.Basic

/-!
# Signal handlers

`signal_handler.hpp`. A guard is an object in some place of the program, a variable or a member; a place
without one is `none`. Signals are numbers and handlers of an arbitrary type; which signals `std::signal`
refuses is for the platform to say.
-/

namespace MatchingEngine

/-- `signal_guard`. -/
structure SignalGuard (η : Type*) where
  signum : Int := -1
  previous : η
  active : Bool := false
  deriving DecidableEq

/-- What the guards of a program share: the handler that each signal has, and where guards are alive. -/
structure SignalState (ι η : Type*) where
  handlers : Int → η
  guards : ι → Option (SignalGuard η)

/-- What a program does with its guards. -/
inductive GuardOp (ι η : Type*) where
  | create (x : ι)
  | install (x : ι) (signum : Int) (handler : η)
  | moveConstruct (x other : ι)
  | moveAssign (x other : ι)
  | destroy (x : ι)

variable {ι η : Type*}

/-- `std::signal`: the previous handler, or `none` for `SIG_ERR`, and the handlers behind the call. -/
def setHandler (catchable : Int → Bool) (handlers : Int → η) (signum : Int) (handler : η) :
    Option η × (Int → η) :=
  if catchable signum then (some (handlers signum), Function.update handlers signum handler)
  else (none, handlers)

namespace SignalGuard

variable (catchable : Int → Bool) (sigDfl : η)

/-- A guard as the source initializes its members. -/
def initial : SignalGuard η where
  previous := sigDfl

/-- The constructor that installs a handler. -/
def install (handlers : Int → η) (signum : Int) (handler : η) : SignalGuard η × (Int → η) :=
  match setHandler catchable handlers signum handler with
  | (none, handlers) => (initial sigDfl, handlers)
  | (some previous, handlers) => ({ signum, previous, active := true }, handlers)

def release (guard : SignalGuard η) (handlers : Int → η) : SignalGuard η × (Int → η) :=
  if guard.active then
    ({ guard with active := false, signum := -1 },
      (setHandler catchable handlers guard.signum guard.previous).2)
  else (guard, handlers)

/-- The move assignment from another guard: the guard, the other one, and the handlers. -/
def assign (guard other : SignalGuard η) (handlers : Int → η) :
    SignalGuard η × SignalGuard η × (Int → η) :=
  let (guard, handlers) := guard.release catchable handlers
  ({ guard with signum := other.signum, previous := other.previous, active := other.active },
    { other with active := false, signum := -1 }, handlers)

end SignalGuard

namespace SignalState

variable [DecidableEq ι] (catchable : Int → Bool) (sigDfl : η)

/-- There is no result where an object is missing or one is in the way. -/
def step (s : SignalState ι η) : GuardOp ι η → Option (SignalState ι η)
  | .create x =>
    match s.guards x with
    | none => some { s with guards := Function.update s.guards x (some (.initial sigDfl)) }
    | some _ => none
  | .install x signum handler =>
    match s.guards x with
    | none =>
      let (guard, handlers) := SignalGuard.install catchable sigDfl s.handlers signum handler
      some ⟨handlers, Function.update s.guards x (some guard)⟩
    | some _ => none
  | .moveConstruct x other =>
    match s.guards x, s.guards other with
    | none, some source =>
      let (guard, source, handlers) :=
        (SignalGuard.initial sigDfl).assign catchable source s.handlers
      some ⟨handlers, Function.update (Function.update s.guards other (some source)) x (some guard)⟩
    | _, _ => none
  | .moveAssign x other =>
    match s.guards x, s.guards other with
    | some guard, some source =>
      if x = other then some s
      else
        let (guard, source, handlers) := guard.assign catchable source s.handlers
        some ⟨handlers, Function.update (Function.update s.guards other (some source)) x (some guard)⟩
    | _, _ => none
  | .destroy x =>
    match s.guards x with
    | some guard =>
      let (_, handlers) := guard.release catchable s.handlers
      some ⟨handlers, Function.update s.guards x none⟩
    | none => none

def run : SignalState ι η → List (GuardOp ι η) → Option (SignalState ι η)
  | s, [] => some s
  | s, op :: ops => (s.step catchable sigDfl op).bind fun s => s.run ops

end SignalState

/-! ### The guards of the program -/

/-- What `main` has signals do. -/
inductive SignalHandler where
  | sigDfl
  | sigIgn
  | requestStop
  | other (address : Nat)
  deriving DecidableEq

/-- `SIGINT` and `SIGTERM` on Linux. -/
def sigint : Int := 2

def sigterm : Int := 15

/-- The members of the guards that `make_stop_source_signal_guards` returns. -/
inductive StopSourceGuard where
  | sigint
  | sigterm
  deriving DecidableEq

/-- Where guards are: those of `main`, and any others. -/
abbrev GuardPlace (ι : Type*) := StopSourceGuard ⊕ ι

/-- `make_stop_source_signal_guards`, into the local variable of its caller. -/
def makeStopSourceSignalGuards {ι : Type*} : List (GuardOp (GuardPlace ι) SignalHandler) :=
  [.install (.inl .sigint) MatchingEngine.sigint .requestStop,
    .install (.inl .sigterm) MatchingEngine.sigterm .requestStop]

/-- The end of the lifetime of that variable: its members are destroyed in reverse. -/
def destroyStopSourceSignalGuards {ι : Type*} : List (GuardOp (GuardPlace ι) SignalHandler) :=
  [.destroy (.inl .sigterm), .destroy (.inl .sigint)]

end MatchingEngine
