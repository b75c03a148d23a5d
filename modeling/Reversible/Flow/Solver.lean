import Reversible.Flow.Problem
import Reversible.Report.Event

/-! # The worklist solver

Nodes wait in a queue, at first all of them. A node that is visited combines what it has taken
in so far with the results of its sources; if its own result changes, those of its targets that
do not wait yet are put at the end of the queue. When no node waits the equations hold.

The solver is given a budget of visits. `FlowProblem.solve` computes one from a bound on how
often a result can change: a node waits once at the start, and after that only when the result
of some node has changed.
-/

namespace Reversible

structure FlowCell (Node Value : Type) where
  node : Node
  input : Value
  output : Value
deriving DecidableEq

structure Visit (Node Value : Type) where
  node : Node
  input : Value
  output : Value
  changed : Bool
deriving DecidableEq

/-- How far the solver has come. Each node has a cell. A node counts as queued from when it is
put on the worklist until it is next visited. -/
structure FlowState (Node Value : Type) where
  cells : List (FlowCell Node Value)
  pending : List Node
  queued : List Node
  visits : List (Visit Node Value)
deriving DecidableEq

namespace FlowState

variable {Node Value : Type} [DecidableEq Node]

def cell? (s : FlowState Node Value) (n : Node) : Option (FlowCell Node Value) :=
  s.cells.find? (·.node = n)

def input? (s : FlowState Node Value) (n : Node) : Option Value := (s.cell? n).map (·.input)

def output? (s : FlowState Node Value) (n : Node) : Option Value := (s.cell? n).map (·.output)

def setCell (cells : List (FlowCell Node Value)) (new : FlowCell Node Value) :
    List (FlowCell Node Value) :=
  cells.map fun c => if c.node = new.node then new else c

/-- Put a node at the end of the worklist, unless it is queued or has no cell. -/
def enqueue (s : FlowState Node Value) (n : Node) : FlowState Node Value :=
  if (s.cell? n).isSome && !s.queued.contains n then
    { s with pending := s.pending ++ [n], queued := n :: s.queued }
  else s

end FlowState

namespace FlowProblem

variable {Node Value : Type} [DecidableEq Node] [DecidableEq Value]

def start (p : FlowProblem Node Value) : FlowState Node Value where
  cells := (firsts id p.nodes).map fun n => ⟨n, p.initialInput n, p.initialOutput n⟩
  pending := p.nodes
  queued := firsts id p.nodes
  visits := []

/-- What a node takes in: `current` and then the results of its sources. -/
def gather (p : FlowProblem Node Value) (s : FlowState Node Value) (n : Node) (current : Value) :
    Value :=
  ((p.sources n).filterMap s.output?).foldl p.combine current

/-- Visit the node `n`, with `rest` waiting behind it. -/
def visit (p : FlowProblem Node Value) (s : FlowState Node Value) (n : Node) (rest : List Node) :
    FlowState Node Value :=
  let s := { s with pending := rest, queued := s.queued.filter (· ≠ n) }
  match s.cell? n with
  | none => s
  | some c =>
    let input := p.gather s n c.input
    let output := p.transfer input n
    let changed := c.output != output
    let s := { s with
      cells := FlowState.setCell s.cells ⟨n, input, output⟩
      visits := s.visits ++ [⟨n, input, output, changed⟩] }
    if changed then (p.targets n).foldl FlowState.enqueue s else s

/-- Visit nodes until none waits or the budget is spent. -/
def run (p : FlowProblem Node Value) : Nat → FlowState Node Value → FlowState Node Value
  | 0, s => s
  | budget + 1, s =>
    match s.pending with
    | [] => s
    | n :: rest => run p budget (p.visit s n rest)

/-- Visits enough for any problem in which the result of a node changes at most `height` times. -/
def budget (p : FlowProblem Node Value) (height : Nat) : Nat :=
  p.nodes.length * (p.nodes.length * height + 1)

def solve (p : FlowProblem Node Value) (height : Nat) : FlowState Node Value :=
  p.run (p.budget height) p.start

def inAt? (p : FlowProblem Node Value) (s : FlowState Node Value) (n : Node) : Option Value :=
  p.direction.choose s.input? s.output? n

def outAt? (p : FlowProblem Node Value) (s : FlowState Node Value) (n : Node) : Option Value :=
  p.direction.choose s.output? s.input? n

/-- The events of a solution, where `during` are those of a visit itself. -/
def events (p : FlowProblem Node Value) (s : FlowState Node Value) (nodeText : Node → String)
    (during : Node → List Event) : List Event :=
  let step (v : Visit Node Value) (i : Nat) :=
    during v.node ++ [.step (i + 1) (nodeText v.node) v.changed]
  .solving p.direction p.nodes.length ::
    s.visits.zipIdx.flatMap (fun (v, i) => step v i) ++ [.converged s.visits.length]

end FlowProblem

end Reversible
