import Reversible.Graph.Block
import Reversible.Order.Repetition

/-! # Control graphs

The blocks of a routine are linked by labels: control passes from the block with a label in
its exit point to the block with that label in its entry point. Control neither enters the
first block nor leaves the last one through a label, so those labels link nothing.
-/

namespace Reversible

inductive LabelRole where
  | entry
  | exit
deriving DecidableEq, Repr

/-- A label that links, with the block it stands in. -/
structure LabelSite where
  role : LabelRole
  label : Ident
  block : Nat
deriving DecidableEq, Repr

/-- The blocks of a routine. Blocks are numbered by their position. -/
structure ControlGraph where
  routine : Name
  blocks : List Block

namespace ControlGraph

def ofRoutine (r : Routine) : ControlGraph := ⟨r.name, Block.ofBody r.body⟩

def size (g : ControlGraph) : Nat := g.blocks.length

def first (_ : ControlGraph) : Nat := 0

def last (g : ControlGraph) : Nat := g.size - 1

def ids (g : ControlGraph) : List Nat := List.range g.size

/-- The labels that link, block by block: those of the entry point, then those of the exit
point. -/
def labelSites (g : ControlGraph) : List LabelSite :=
  g.blocks.zipIdx.flatMap fun (b, i) =>
    (if 0 < i then b.entryLabels.map (⟨.entry, ·, i⟩) else []) ++
      if i + 1 < g.size then b.exitLabels.map (⟨.exit, ·, i⟩) else []

/-- The block that has a label in a role. Where several have it, the first one counts. -/
def blockOf? (g : ControlGraph) (role : LabelRole) (label : Name) : Option Nat :=
  (g.labelSites.find? fun s => s.role = role ∧ s.label.name = label).map (·.block)

/-- The block that a jump to a label lands in: forward at its entry point, backward at its
exit point. -/
def landing? (g : ControlGraph) (direction : Direction) (label : Name) : Option Nat :=
  g.blockOf? (direction.choose .entry .exit) label

def linked (g : ControlGraph) (role : LabelRole) (labels : List Ident) : List Nat :=
  firsts id (labels.filterMap fun l => g.blockOf? role l.name)

/-- The blocks from which control passes to a block. -/
def predecessors (g : ControlGraph) (i : Nat) : List Nat :=
  match g.blocks[i]? with
  | none => []
  | some b => g.linked .exit b.entryLabels

/-- The blocks to which control passes from a block. -/
def successors (g : ControlGraph) (i : Nat) : List Nat :=
  match g.blocks[i]? with
  | none => []
  | some b => g.linked .entry b.exitLabels

def instructions (g : ControlGraph) (i : Nat) : List Instruction :=
  match g.blocks[i]? with
  | none => []
  | some b => b.instructions

def blockName (i : Nat) : String := "b" ++ toString i

def render (g : ControlGraph) : String :=
  let names (l : List String) := "[" ++ ", ".intercalate l ++ "]"
  let line (b : Block) (i : Nat) :=
    blockName i ++ ": " ++ toString b.instructions.length ++ " instructions, entry "
      ++ names (b.entryLabels.map (·.name)) ++ " exit " ++ names (b.exitLabels.map (·.name))
      ++ ", preds " ++ names ((g.predecessors i).map blockName)
      ++ " succs " ++ names ((g.successors i).map blockName)
  "\n".intercalate (g.blocks.zipIdx.map fun (b, i) => line b i)

def outOfBoundsMessage (g : ControlGraph) (i : Nat) : String :=
  s!"index out of bounds: the len is {g.size} but the index is {i}"

end ControlGraph

end Reversible
