import Reversible.Syntax.Routine

/-! # Blocks

A body is cut into blocks at its control instructions: an exit point ends a block and an entry
point begins one. The first block is open from the start, and the last one may lack an exit
point.
-/

namespace Reversible

/-- A run of instructions and its position in the body. -/
structure Block where
  start : Nat
  instructions : List Instruction

namespace Block

def push (b : Block) (i : Instruction) : Block := { b with instructions := b.instructions ++ [i] }

def entryLabels (b : Block) : List Ident :=
  match b.instructions.head? with
  | some i => if i.isEntryPoint then i.labels else []
  | none => []

def exitLabels (b : Block) : List Ident :=
  match b.instructions.getLast? with
  | some i => if i.isExitPoint then i.labels else []
  | none => []

/-- The blocks of the instructions from `position` on, where `current` is the open block, if
there is one. Outside a block only an entry point is not passed over. -/
def cut : Nat → Option Block → List Instruction → List Block
  | _, none, [] => []
  | _, some current, [] => [current]
  | position, none, i :: rest =>
    if i.isEntryPoint then cut (position + 1) (some ⟨position, [i]⟩) rest
    else cut (position + 1) none rest
  | position, some current, i :: rest =>
    if i.isExitPoint then current.push i :: cut (position + 1) none rest
    else cut (position + 1) (some (current.push i)) rest

def ofBody (body : List Instruction) : List Block := cut 0 (some ⟨0, []⟩) body

end Block

end Reversible
