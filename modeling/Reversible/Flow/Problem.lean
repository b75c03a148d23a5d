import Reversible.Order.Repetition
import Reversible.Syntax.Source

/-! # Dataflow problems

A problem gives each node of a graph two values, one before it and one after it. The value on
the side where information comes in is combined from the neighbours on that side; the value on
the other side is transferred from it. Along a forward problem information comes in from
predecessors, along a backward one from successors.
-/

namespace Reversible

structure FlowProblem (Node Value : Type) where
  direction : Direction
  nodes : List Node
  predecessors : Node → List Node
  successors : Node → List Node
  initialIn : Node → Value
  initialOut : Node → Value
  combine : Value → Value → Value
  transfer : Value → Node → Value

namespace FlowProblem

variable {Node Value : Type}

/-- The neighbours whose results a node takes in. -/
def sources (p : FlowProblem Node Value) (n : Node) : List Node :=
  p.direction.choose p.predecessors p.successors n

/-- The neighbours that take in the result of a node. -/
def targets (p : FlowProblem Node Value) (n : Node) : List Node :=
  p.direction.choose p.successors p.predecessors n

def initialInput (p : FlowProblem Node Value) (n : Node) : Value :=
  p.direction.choose p.initialIn p.initialOut n

def initialOutput (p : FlowProblem Node Value) (n : Node) : Value :=
  p.direction.choose p.initialOut p.initialIn n

end FlowProblem

end Reversible
