import Reversible.Place.Error

/-! # Log events

A check can be followed through the events it gives rise to. They are computed beside the
results and never decide anything.
-/

namespace Reversible

/-- Levels from the most severe to the most detailed. -/
inductive Level where
  | warn
  | debug
  | trace
deriving DecidableEq, Repr

namespace Level

def rank : Level → Nat
  | warn => 0
  | debug => 1
  | trace => 2

def render : Level → String
  | warn => "WARN"
  | debug => "DEBUG"
  | trace => "TRACE"

end Level

inductive Event where
  | declarationsCollected (routine : Name) (count : Nat)
  | graphBuilt (routine : Name) (blocks labels : Nat)
  | graphDump (routine : Name) (text : String)
  | solving (direction : Direction) (nodes : Nat)
  | step (iteration : Nat) (node : String) (changed : Bool)
  | converged (iterations : Nat)
  | occupancySolved (routine : Name) (blocks iterations : Nat)
  | conflictsChecked (routine : Name) (reported : Nat)
  | occupancySkipped
  | occupancyDump (block : Nat) (before after : String)
  | memoryChecked (routine : Name) (instructions errors : Nat)
  | memorySkipped
  | marksDump (span : Span) (destroyed created : String)
  | graphErrorsDropped (count : Nat)
  | routineVerified (diagnostics : Nat)
  | environmentMissing (routine : Name)
  | checkerFailed (routine : Name) (error : PlaceError)
  | resourceSkipped (path : ResourcePath) (error : PlaceError)
  | variableMissing (name : Name) (error : PlaceError)
  | markingFailed (path : MemoryPath) (error : PlaceError)
deriving DecidableEq, Repr

namespace Event

def level : Event → Level
  | environmentMissing .. | checkerFailed .. | resourceSkipped .. | variableMissing ..
  | markingFailed .. => .warn
  | step .. => .trace
  | _ => .debug

def message : Event → String
  | declarationsCollected .. => "declarations collected"
  | graphBuilt .. => "control graph built"
  | graphDump routine text => "control graph of `" ++ routine ++ "`:\n" ++ text
  | solving .. => "solving dataflow problem"
  | step .. => "dataflow step"
  | converged .. => "dataflow converged"
  | occupancySolved .. => "liveness solved"
  | conflictsChecked .. => "conflicts checked"
  | occupancySkipped => "liveness skipped"
  | occupancyDump block before after => s!"b{block} in:\n{before}\nb{block} out:\n{after}"
  | memoryChecked .. => "memory marking checked"
  | memorySkipped => "memory marking skipped"
  | marksDump _ destroyed created => s!"destroyed:\n{destroyed}\ncreated:\n{created}"
  | graphErrorsDropped .. => "graph diagnostics dropped after declaration errors"
  | routineVerified .. => "routine verified"
  | environmentMissing .. => "no environment for routine"
  | checkerFailed .. => "internal verifier error"
  | resourceSkipped .. => "skipping resource outside the environment"
  | variableMissing .. => "variable missing from liveness state"
  | markingFailed .. => "memory marking failed"

def fields : Event → List (String × String)
  | declarationsCollected routine count =>
    [("routine", routine), ("num_variables", toString count)]
  | graphBuilt routine blocks labels =>
    [("routine", routine), ("num_blocks", toString blocks), ("num_labels", toString labels)]
  | solving direction nodes => [("direction", direction.render), ("num_nodes", toString nodes)]
  | step iteration node changed =>
    [("iteration", toString iteration), ("node", node), ("changed", toString changed)]
  | converged iterations => [("iterations", toString iterations)]
  | occupancySolved routine blocks iterations =>
    [("routine", routine), ("blocks", toString blocks), ("iterations", toString iterations)]
  | conflictsChecked routine reported =>
    [("routine", routine), ("reported", toString reported)]
  | memoryChecked routine instructions errors =>
    [("routine", routine), ("instructions", toString instructions), ("errors", toString errors)]
  | marksDump span .. => [("span", span.render)]
  | graphErrorsDropped count => [("suppressed", toString count)]
  | routineVerified diagnostics => [("diagnostics", toString diagnostics)]
  | environmentMissing routine => [("routine", routine)]
  | checkerFailed routine error => [("routine", routine), ("error", error.message)]
  | resourceSkipped path error => [("path", path.render), ("error", error.message)]
  | variableMissing name error => [("variable", name), ("error", error.message)]
  | markingFailed path error => [("path", path.render), ("error", error.message)]
  | graphDump .. | occupancySkipped | occupancyDump .. | memorySkipped => []

end Event

def eventsUpTo (level : Level) (events : List Event) : List Event :=
  events.filter fun e => e.level.rank ≤ level.rank

end Reversible
