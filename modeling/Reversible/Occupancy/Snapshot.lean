import Reversible.Layout.Expansion
import Reversible.Occupancy.State

/-! # Snapshots

The occupancy of every slot of a routine at one point. A structure is read through its leaves
and written at all of them.
-/

namespace Reversible

/-- The occupancy of each leaf of a layout. -/
abbrev Snapshot := Layout Occupancy

namespace Snapshot

def blank (env : Environment) : Except TypeError Snapshot := do
  return (← env.layout).map fun _ => .unknown

def overwrite (s : Snapshot) (path : ResourcePath) (new : Occupancy) : Except PlaceError Snapshot :=
  Layout.update s path (·.overwrite new)

def initializeAt (s : Snapshot) (path : ResourcePath) (span : Span) : Except PlaceError Snapshot :=
  s.overwrite path (.initializedAt span)

def finalizeAt (s : Snapshot) (path : ResourcePath) (span : Span) : Except PlaceError Snapshot :=
  s.overwrite path (.finalizedAt span)

def read (s : Snapshot) (path : ResourcePath) : Except PlaceError Occupancy :=
  match Layout.slot s path with
  | .error e => .error e
  | .ok (.leaf state) => .ok state
  | .ok (.inner ms) => .ok (.synthesize ms.values)

def meet (s t : Snapshot) : Snapshot := Layout.zipWith Occupancy.meet s t

def render (s : Snapshot) : String := Layout.render Occupancy.render s

end Snapshot

end Reversible
