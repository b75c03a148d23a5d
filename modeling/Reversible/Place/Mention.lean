import Reversible.Place.Path
import Reversible.Syntax.Routine

/-! # The places that expressions mention

Storage denotes a resource path and memory a memory path. An expression mentions the slots
and the memory that occur in it, also inside allocations and structure literals. Storage and
memory are kept apart: a slot that holds a reference is not mentioned by going through it.
-/

namespace Reversible

/-- The slot that storage denotes; a type annotation changes nothing. -/
def Storage.path : Storage → ResourcePath
  | .slot id => .ofVariable id.name
  | .typed of _ _ => of.path
  | .member of id _ => of.path.push id.name

def Memory.path : Memory → MemoryPath
  | .deref of _ => (MemoryPath.ofResource of.path).push .deref
  | .derefAgain of _ => of.path.push .deref
  | .member of id _ => of.path.push (.member id.name)

namespace Expr

mutual

/-- The slots that an expression mentions, from left to right. -/
def resourcePaths : Expr → List ResourcePath
  | .storage place => [place.path]
  | .allocation of _ => of.resourcePaths
  | .record members _ => memberResourcePaths members
  | .int .. | .null .. | .memory .. => []

def memberResourcePaths : List (Ident × Expr) → List ResourcePath
  | [] => []
  | (_, value) :: rest => value.resourcePaths ++ memberResourcePaths rest

end

mutual

def memories : Expr → List Memory
  | .memory place => [place]
  | .allocation of _ => of.memories
  | .record members _ => memberMemories members
  | .int .. | .null .. | .storage .. => []

def memberMemories : List (Ident × Expr) → List Memory
  | [] => []
  | (_, value) :: rest => value.memories ++ memberMemories rest

end

mutual

/-- The variables under all slots and memory that an expression mentions, from left to right. -/
def roots : Expr → List Ident
  | .storage place => [place.root]
  | .memory place => [place.base.root]
  | .allocation of _ => of.roots
  | .record members _ => memberRoots members
  | .int .. | .null .. => []

def memberRoots : List (Ident × Expr) → List Ident
  | [] => []
  | (_, value) :: rest => value.roots ++ memberRoots rest

end

end Expr

def Arithmetic.resourcePaths (a : Arithmetic) : List ResourcePath :=
  a.operands.flatMap Expr.resourcePaths

def Condition.resourcePaths (c : Condition) : List ResourcePath :=
  c.operands.flatMap Expr.resourcePaths

/-- The expressions that an instruction only reads. -/
def Instruction.operands : Instruction → List Expr
  | .assign _ _ (some modifier) _ => modifier.value.operands
  | .branch _ _ _ condition _ => condition.operands
  | _ => []

/-- The variables that an instruction mentions: those it creates, then those it destroys, then
those it only reads. -/
def Instruction.roots (i : Instruction) : List Ident :=
  i.created.flatMap Expr.roots ++ i.destroyed.flatMap Expr.roots ++ i.operands.flatMap Expr.roots

end Reversible
