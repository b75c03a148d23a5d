import Reversible.Verify.Routine

/-! # Verifying a program -/

namespace Reversible

/-- What verification finds out about a program: what belongs to no single routine, and a report
for each routine. -/
structure ProgramReport where
  program : List Diagnostic
  routines : List RoutineReport

namespace ProgramReport

def diagnostics (report : ProgramReport) : List Diagnostic :=
  report.program ++ report.routines.flatMap (·.diagnostics)

def isAccepted (report : ProgramReport) : Bool := report.diagnostics.isEmpty

end ProgramReport

namespace Program

/-- The environment of a routine; a routine without one has no variables. -/
def environmentOf (envs : NameMap Environment) (r : Routine) : Environment :=
  (envs.get? r.name).getD (.ofTypes ∅)

def verify (p : Program) (envs : NameMap Environment) (config : QueueConfig) : ProgramReport where
  program := (Queue.ofList config (p.repeatedRoutines.map (·.diagnostic))).flushed
  routines := p.routines.map fun r => r.verify (environmentOf envs r) config

def verifyEvents (p : Program) (envs : NameMap Environment) (config : QueueConfig)
    (dumps : Dumps) : List Event :=
  p.routines.flatMap fun r =>
    (if envs.contains r.name then [] else [.environmentMissing r.name]) ++
      r.verifyEvents (environmentOf envs r) config dumps

end Program

end Reversible
