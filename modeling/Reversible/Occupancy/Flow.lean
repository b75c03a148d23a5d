import Reversible.Declarations
import Reversible.Flow.Solver
import Reversible.Graph.Basic
import Reversible.Occupancy.Action

/-! # Occupancy as a dataflow problem

Information flows forward through the blocks of a routine. Where the first block begins,
the inputs are initialized and nothing is known about other slots.
-/

namespace Reversible

/-- The occupancy problem of a routine. `blank` is the snapshot in which nothing is known and
`entry` the one in which the routine begins. -/
structure OccupancyProblem where
  graph : ControlGraph
  blank : Snapshot
  entry : Snapshot

namespace OccupancyProblem

def initializeInputs (s : Snapshot) (inputs : List Ident) : Except PlaceError Snapshot :=
  inputs.foldlM (fun s id => s.initializeAt (.ofVariable id.name) id.span) s

def build (graph : ControlGraph) (env : Environment) (inputs : List Ident) :
    Except PlaceError OccupancyProblem :=
  match Snapshot.blank env with
  | .error e => .error (.type e)
  | .ok blank =>
    match initializeInputs blank inputs with
    | .error e => .error e
    | .ok entry => .ok ⟨graph, blank, entry⟩

def actions (p : OccupancyProblem) (block : Nat) : List SlotAction :=
  (p.graph.instructions block).flatMap Instruction.actions

def transfer (p : OccupancyProblem) (s : Snapshot) (block : Nat) : Snapshot :=
  (p.actions block).foldl SlotAction.apply s

def initialIn (p : OccupancyProblem) (block : Nat) : Snapshot :=
  if block = p.graph.first then p.entry else p.blank

def flow (p : OccupancyProblem) : FlowProblem Nat Snapshot where
  direction := .forward
  nodes := p.graph.ids
  predecessors := p.graph.predecessors
  successors := p.graph.successors
  initialIn := p.initialIn
  initialOut := fun _ => p.blank
  combine := Snapshot.meet
  transfer := p.transfer

/-- All places that can be causes: those of the snapshot at entry, and those of actions. -/
def causes (p : OccupancyProblem) : Causes :=
  .ofList (p.entry.values.flatMap (fun o => o.initializers.toList ++ o.finalizers.toList) ++
    (p.graph.ids.flatMap p.actions).map (·.span))

/-- A bound on how often a snapshot can grow: a leaf leaves the unknown, gains causes of either
kind one by one, and may come into conflict. -/
def height (p : OccupancyProblem) : Nat :=
  p.blank.values.length * (2 * p.causes.size + 3)

def solve (p : OccupancyProblem) : FlowState Nat Snapshot := p.flow.solve p.height

def transferEvents (p : OccupancyProblem) (block : Nat) : List Event :=
  ((p.actions block).filter fun a => !a.isReading).flatMap (SlotAction.missing p.blank)

def events (p : OccupancyProblem) : List Event :=
  p.flow.events p.solve (fun b => "BlockId(" ++ toString b ++ ")") p.transferEvents

end OccupancyProblem

end Reversible
