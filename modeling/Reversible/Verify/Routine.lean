import Reversible.Graph.Faults
import Reversible.Marks.Balance
import Reversible.Occupancy.Checks
import Reversible.Report.Queue

/-! # Verifying a routine

Four passes look at a routine: its declarations, its control graph, the occupancy of its slots
and its memory. Each has a queue of its own. Occupancy is only looked at if the first two passes
found no error, and memory only if the first one found none. After an error in the declarations
nothing else is reported.
-/

namespace Reversible

def internalError (r : Routine) (e : PlaceError) : Diagnostic where
  code := .internal
  message := "internal verifier error: " ++ e.message
  labels := [⟨r.span, "while verifying this routine", true⟩]
  notes := ["this is a bug in the verifier, not in the program"]

/-- What verification finds out about a routine. The solution is missing if occupancy was not
looked at. -/
structure RoutineReport where
  name : Name
  graph : ControlGraph
  solution : Option OccupancySolution
  diagnostics : List Diagnostic

def RoutineReport.isAccepted (report : RoutineReport) : Bool := report.diagnostics.isEmpty

/-- The passes whose results are shown in the log. -/
structure Dumps where
  graph : Bool := false
  occupancy : Bool := false
  memory : Bool := false

namespace Routine

def declarationQueue (r : Routine) (env : Environment) (config : QueueConfig) : Queue :=
  .ofList config ((Declarations.faults r env).map (·.diagnostic))

def graphQueue (r : Routine) (config : QueueConfig) : Queue :=
  .ofList config ((ControlGraph.faults r).map (·.diagnostic))

def occupancyProblem (r : Routine) (env : Environment) : Except PlaceError OccupancyProblem :=
  OccupancyProblem.build (.ofRoutine r) env (Declarations.ofRoutine r).inputs

def occupancyPass (r : Routine) (env : Environment) : Option OccupancySolution × List Diagnostic :=
  match r.occupancyProblem env with
  | .error e => (none, [internalError r e])
  | .ok p =>
    let s := p.solve
    (some s, (OccupancySolution.faults p.graph s (.ofRoutine r)).map (·.diagnostic))

def memoryPass (r : Routine) (env : Environment) : List Diagnostic :=
  match InstructionMarks.ofBody env r.body with
  | .error e => [internalError r (.type e)]
  | .ok marks => InstructionMarks.diagnostics marks

def verify (r : Routine) (env : Environment) (config : QueueConfig) : RoutineReport :=
  let declarations := r.declarationQueue env config
  let graph := r.graphQueue config
  let (solution, occupancy) :=
    if declarations.hasErrors || graph.hasErrors then (none, []) else r.occupancyPass env
  let memory := if declarations.hasErrors then [] else r.memoryPass env
  { name := r.name
    graph := .ofRoutine r
    solution
    diagnostics := declarations.flushed ++
      (if declarations.hasErrors then [] else graph.flushed) ++
      (Queue.ofList config occupancy).flushed ++ (Queue.ofList config memory).flushed }

def occupancyEvents (r : Routine) (env : Environment) (dumps : Dumps) : List Event :=
  match r.occupancyProblem env with
  | .error e => [.checkerFailed r.name e]
  | .ok p =>
    let dump (c : FlowCell Nat Snapshot) :=
      Event.occupancyDump c.node c.input.render c.output.render
    p.analysisEvents (.ofRoutine r) ++ if dumps.occupancy then p.solve.cells.map dump else []

def memoryEvents (r : Routine) (env : Environment) (config : QueueConfig) (dumps : Dumps) :
    List Event :=
  match InstructionMarks.ofBody env r.body with
  | .error e => [.checkerFailed r.name (.type e)]
  | .ok marks =>
    let dump (i : Instruction) (m : InstructionMarks) :=
      Event.marksDump i.span m.destroyed.render m.created.render
    InstructionMarks.events r.name marks (.ofList config (InstructionMarks.diagnostics marks)) ++
      if dumps.memory then List.zipWith dump r.body marks else []

def verifyEvents (r : Routine) (env : Environment) (config : QueueConfig) (dumps : Dumps) :
    List Event :=
  let declarations := r.declarationQueue env config
  let graph := r.graphQueue config
  Declarations.events r ++ ControlGraph.events r ++
    (if dumps.graph then [.graphDump r.name (ControlGraph.ofRoutine r).render] else []) ++
    (if declarations.hasErrors || graph.hasErrors then [.occupancySkipped]
      else r.occupancyEvents env dumps) ++
    (if declarations.hasErrors then [.memorySkipped] else r.memoryEvents env config dumps) ++
    (if declarations.hasErrors then [.graphErrorsDropped graph.flushed.length] else []) ++
    [.routineVerified (r.verify env config).diagnostics.length]

end Routine

end Reversible
