import Reversible.Marks.Table
import Reversible.Place.Mention
import Reversible.Report.Queue
import Reversible.Report.Event

/-! # Balance of memory

An instruction must create the memory that it destroys and nothing else, and each place once.
-/

namespace Reversible

inductive MemoryRole where
  | destroyed
  | created
deriving DecidableEq, Repr

def MemoryRole.render : MemoryRole → String
  | destroyed => "destroyed"
  | created => "created"

/-- What is wrong with an instruction's memory: a place marked twice, a path that leads
nowhere, or places in one role only. -/
inductive MemoryFault where
  | twice (role : MemoryRole) (path : MemoryPath) (span : Span)
  | invalid (path : MemoryPath) (span : Span) (error : PlaceError)
  | unbalanced (role : MemoryRole) (span : Span) (paths : List MemoryPath)
deriving DecidableEq, Repr

namespace MemoryFault

def isInvalid : MemoryFault → Bool
  | invalid .. => true
  | _ => false

def listPaths (paths : List MemoryPath) : String :=
  ", ".intercalate (paths.map fun p => "`" ++ p.render ++ "`")

def diagnostic : MemoryFault → Diagnostic
  | twice role path span =>
    { code := match role with
        | .destroyed => .destroyedTwice
        | .created => .createdTwice
      message := "memory resource `" ++ path.render ++ "` has already been " ++ role.render
        ++ " by this assignment"
      labels := [⟨span, role.render ++ " again here", true⟩] }
  | invalid path span error =>
    { code := .invalidAccess
      message := "invalid memory access `" ++ path.render ++ "`"
      labels := [⟨span, "accessed here", true⟩]
      notes := [error.message] }
  | unbalanced .created span paths =>
    { code := .createdOnly
      message := "memory resources must be destroyed before they are created"
      labels := [⟨span, "in this assignment", true⟩]
      notes := ["created but not destroyed: " ++ listPaths paths] }
  | unbalanced .destroyed span paths =>
    { code := .destroyedOnly
      message := "memory resources must be created after they are destroyed"
      labels := [⟨span, "in this assignment", true⟩]
      notes := ["destroyed but not created: " ++ listPaths paths] }

def event? : MemoryFault → Option Event
  | invalid path _ error => some (.markingFailed path error)
  | _ => none

end MemoryFault

namespace MarkTable

def markFault? (role : MemoryRole) (m : Memory) : Except PlaceError Bool → Option MemoryFault
  | .ok false => none
  | .ok true => some (.twice role m.path m.span)
  | .error e => some (.invalid m.path m.span e)

def markAll (role : MemoryRole) : MarkTable → List Memory → MarkTable × List MemoryFault
  | t, [] => (t, [])
  | t, m :: rest =>
    let (marked, result) := t.mark m.path
    let (final, faults) := markAll role marked rest
    (final, (markFault? role m result).toList ++ faults)

end MarkTable

/-- The memory that an instruction destroys and creates. -/
structure InstructionMarks where
  destroyed : MarkTable
  created : MarkTable
  faults : List MemoryFault
deriving DecidableEq

namespace InstructionMarks

def imbalance (role : MemoryRole) (span : Span) (t other : MarkTable) : List MemoryFault :=
  match t.difference other with
  | [] => []
  | paths => [.unbalanced role span paths]

/-- Mark what an instruction destroys and what it creates, from `blank`. The two are compared
only if every path could be followed. -/
def check (blank : MarkTable) (i : Instruction) : InstructionMarks :=
  let (destroyed, destroyFaults) := blank.markAll .destroyed (i.destroyed.flatMap Expr.memories)
  let (created, createFaults) := blank.markAll .created (i.created.flatMap Expr.memories)
  let faults := destroyFaults ++ createFaults
  let balance :=
    if faults.any (·.isInvalid) then []
    else imbalance .created i.span created destroyed ++
      imbalance .destroyed i.span destroyed created
  ⟨destroyed, created, faults ++ balance⟩

def ofBody (env : Environment) (body : List Instruction) :
    Except TypeError (List InstructionMarks) := do
  let blank ← MarkTable.blank env
  return body.map (check blank)

def diagnostics (marks : List InstructionMarks) : List Diagnostic :=
  marks.flatMap fun m => m.faults.map (·.diagnostic)

def events (routine : Name) (marks : List InstructionMarks) (queue : Queue) : List Event :=
  (marks.flatMap fun m => m.faults.filterMap (·.event?)) ++
    [.memoryChecked routine marks.length queue.errorCount]

end InstructionMarks

end Reversible
