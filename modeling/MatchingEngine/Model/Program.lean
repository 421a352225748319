import MatchingEngine.Model.AgentSystem
import MatchingEngine.Model.RingPipeline

/-!
# The program

`matching_engine.cpp`, once its command line has been read: the three agents over two rings, and the main
thread that starts and joins them. A signal asks for a stop at any time.
-/

namespace MatchingEngine

namespace Program

def queueCapacity : Capacity where
  value := 2 ^ 16
  two_le := by decide
  power_of_two := by decide

def capacities : RingCapacities := ⟨queueCapacity, queueCapacity⟩

/-- In the order in which they are declared. -/
def agents : List Mover := [.reader, .matcher, .writer]

/-- The program in front of its input. -/
def initial (input : Bytes) : AgentSystem RingPipeline Mover := .initial agents (.initial input)

def step : AgentSystem RingPipeline Mover → AgentSystem.Mover Mover →
    AgentSystem RingPipeline Mover × List StreamWrite :=
  AgentSystem.step agents RingPipeline.returned (RingPipeline.step capacities)

/-- The program after an interleaving, and what it has written. -/
def run (input : Bytes) (schedule : List (AgentSystem.Mover Mover)) :
    AgentSystem RingPipeline Mover × List StreamWrite :=
  Interleaving.run step (initial input) schedule

end Program

end MatchingEngine
