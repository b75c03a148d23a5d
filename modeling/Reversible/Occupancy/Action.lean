import Reversible.Occupancy.Snapshot
import Reversible.Place.Mention
import Reversible.Report.Event

/-! # What instructions do to slots

An instruction first finalizes the slots it destroys, then uses those it only reads or whose
references it follows, and at last initializes the slots it creates.
-/

namespace Reversible

/-- Something done to a slot, with the place that asks for it. -/
inductive SlotAction where
  | finalizing (path : ResourcePath) (span : Span)
  | reading (path : ResourcePath) (span : Span)
  | initializing (path : ResourcePath) (span : Span)
deriving DecidableEq, Repr

namespace SlotAction

def path : SlotAction → ResourcePath
  | finalizing path _ => path
  | reading path _ => path
  | initializing path _ => path

def span : SlotAction → Span
  | finalizing _ span => span
  | reading _ span => span
  | initializing _ span => span

def isReading : SlotAction → Bool
  | reading .. => true
  | _ => false

/-- The snapshot after an action; an action on a slot that is not there changes nothing. -/
def apply (s : Snapshot) : SlotAction → Snapshot
  | finalizing path span => s.modify path (·.overwrite (.finalizedAt span))
  | reading _ _ => s
  | initializing path span => s.modify path (·.overwrite (.initializedAt span))

def missing (s : Snapshot) (a : SlotAction) : List Event :=
  match Layout.slot s a.path with
  | .ok _ => []
  | .error e => [.resourceSkipped a.path e]

end SlotAction

namespace Instruction

/-- The slots that an instruction finalizes, at the place of the expression they occur in. -/
def finalizations (i : Instruction) : List SlotAction :=
  i.destroyed.flatMap fun e => e.resourcePaths.map (.finalizing · e.span)

def initializations (i : Instruction) : List SlotAction :=
  i.created.flatMap fun e => e.resourcePaths.map (.initializing · e.span)

def followed (i : Instruction) : List SlotAction :=
  ((i.created ++ i.destroyed).flatMap Expr.memories).map fun m => .reading m.base.path m.base.span

/-- The slots that an instruction only reads, in order and each once. -/
def reads : Instruction → List SlotAction
  | .assign _ _ (some modifier) _ =>
    (SortedSet.ofList modifier.value.resourcePaths).toList.map (.reading · modifier.span)
  | .branch _ _ _ condition _ =>
    (SortedSet.ofList condition.resourcePaths).toList.map (.reading · condition.span)
  | _ => []

def actions (i : Instruction) : List SlotAction :=
  i.finalizations ++ i.followed ++ i.reads ++ i.initializations

end Instruction

end Reversible
