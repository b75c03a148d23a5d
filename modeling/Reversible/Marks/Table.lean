import Reversible.Layout.Expansion
import Reversible.Marks.Access

/-! # Marks on the memory of a routine

Each slot that holds a reference has a marking tree.
-/

namespace Reversible

/-- A marking tree for each slot that holds a reference. -/
structure MarkTable where
  types : TypeTable
  slots : Layout (Option MarkTree)
deriving DecidableEq

namespace MarkTable

def slotTree : Ty → Option MarkTree
  | .reference base => some (.pointingTo base)
  | _ => none

def blank (env : Environment) : Except TypeError MarkTable := do
  return ⟨env.types, (← env.layout).map slotTree⟩

def trees (t : MarkTable) : List (ResourcePath × MarkTree) :=
  t.slots.paths.filterMap fun path =>
    match t.slots.leafAt path with
    | .ok (some tree) => some (path, tree)
    | _ => none

/-- Mark the place that a path leads to. The answer is whether it was marked before. -/
def mark (t : MarkTable) (path : MemoryPath) : MarkTable × Except PlaceError Bool :=
  match t.slots.leafAt path.resource with
  | .error e => (t, .error e)
  | .ok none => (t, .error (.notAReference (.ofResource path.resource)))
  | .ok (some tree) =>
    let (tree, found) :=
      tree.follow t.types MarkTree.setMarked (.ofResource path.resource) path.segments
    ({ t with slots := t.slots.modify path.resource fun _ => some tree }, found.map (·.isMarked))

/-- The places that are marked in one table and not in the other, in order. -/
def difference (t other : MarkTable) : List MemoryPath :=
  t.trees.flatMap fun (path, tree) =>
    tree.subtract (.ofResource path) ((other.slots.leafAt path).toOption.bind id)

def render (t : MarkTable) : String :=
  "\n".intercalate (t.trees.map fun (path, tree) => path.render ++ ": " ++ tree.render)

end MarkTable

end Reversible
