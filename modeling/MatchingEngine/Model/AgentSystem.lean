import MatchingEngine.Lib.Interleaving

/-!
# Agent systems

`agent.hpp` and `agent_system.hpp`: agents that each run a loop on a thread of their own, and the thread
that starts them in the order in which they are declared and joins them in reverse. The loops are given
by what their next steps do to the state that they share, and by when an agent's `run` has returned; the
other movers, such as a signal, need no thread. Pinning a thread to a core changes nothing here.
-/

namespace MatchingEngine

/-- Where the thread stands that calls `start` and then `join`, with the agents that it has still to
start, or to join. -/
inductive Lifecycle (ι : Type*) where
  | starting (agents : List ι)
  | joining (agents : List ι)
  | returned
  deriving DecidableEq

/-- The agents that have no thread yet. -/
def Lifecycle.unstarted {ι : Type*} : Lifecycle ι → List ι
  | .starting agents => agents
  | .joining _ => []
  | .returned => []

structure AgentSystem (σ ι : Type*) where
  main : Lifecycle ι
  loops : σ

/-- Who moves. -/
inductive AgentSystem.Mover (ι : Type*) where
  | main
  | loop (i : ι)
  deriving DecidableEq

namespace AgentSystem

variable {σ ι ε : Type*} [DecidableEq ι]

def initial (agents : List ι) (loops : σ) : AgentSystem σ ι := ⟨.starting agents, loops⟩

/-- `start` launches the next agent; `join` waits until the next one has returned. -/
def mainStep (agents : List ι) (returned : σ → ι → Bool) (s : AgentSystem σ ι) : AgentSystem σ ι :=
  match s.main with
  | .starting (_ :: rest) => { s with main := .starting rest }
  | .starting [] => { s with main := .joining agents.reverse }
  | .joining (agent :: rest) =>
    if returned s.loops agent then { s with main := .joining rest } else s
  | .joining [] => { s with main := .returned }
  | .returned => s

def step (agents : List ι) (returned : σ → ι → Bool) (loopStep : σ → ι → σ × List ε)
    (s : AgentSystem σ ι) : Mover ι → AgentSystem σ ι × List ε
  | .main => (s.mainStep agents returned, [])
  | .loop i =>
    if i ∈ s.main.unstarted then (s, [])
    else
      let (loops, reported) := loopStep s.loops i
      ({ s with loops }, reported)

end AgentSystem

end MatchingEngine
