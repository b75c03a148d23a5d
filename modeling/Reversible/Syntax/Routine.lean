import Reversible.Syntax.Expr

/-! # Instructions, routines and programs -/

namespace Reversible

inductive ModifierOp where
  | add | sub | xor
deriving DecidableEq, Repr

/-- The value that an assignment adds, subtracts or mixes in on the way. -/
structure Modifier where
  op : ModifierOp
  value : Arithmetic
  span : Span

/-- One instruction of a body. A jump that runs forward is an exit point and closes a block; one
that runs backward is an entry point and opens a block. -/
inductive Instruction where
  | assign (dst src : Expr) (modifier : Option Modifier) (span : Span)
  | assignMany (dsts srcs : List Expr) (span : Span)
  | call (dsts srcs : List Expr) (direction : Direction) (routine : Ident) (span : Span)
  | jump (direction : Direction) (label : Ident) (span : Span)
  | branch (direction : Direction) (lhs rhs : Ident) (condition : Condition) (span : Span)

namespace Instruction

def span : Instruction → Span
  | assign _ _ _ span => span
  | assignMany _ _ span => span
  | call _ _ _ _ span => span
  | jump _ _ span => span
  | branch _ _ _ _ span => span

def controlDirection : Instruction → Option Direction
  | jump direction _ _ => some direction
  | branch direction _ _ _ _ => some direction
  | _ => none

def isEntryPoint (i : Instruction) : Bool := i.controlDirection == some .backward

def isExitPoint (i : Instruction) : Bool := i.controlDirection == some .forward

def labels : Instruction → List Ident
  | jump _ label _ => [label]
  | branch _ lhs rhs _ _ => [lhs, rhs]
  | _ => []

/-- The expressions assigned to. -/
def created : Instruction → List Expr
  | assign dst _ _ _ => [dst]
  | assignMany dsts _ _ => dsts
  | call dsts _ _ _ _ => dsts
  | _ => []

/-- The expressions assigned from. -/
def destroyed : Instruction → List Expr
  | assign _ src _ _ => [src]
  | assignMany _ srcs _ => srcs
  | call _ srcs _ _ _ => srcs
  | _ => []

end Instruction

structure Param where
  id : Ident
  type : Option TypeExpr
  span : Span

structure Routine where
  id : Ident
  inputs : List Param
  outputs : List Param
  body : List Instruction
  span : Span

def Routine.name (r : Routine) : Name := r.id.name

def Routine.params (r : Routine) : List Param := r.inputs ++ r.outputs

inductive Definition where
  | type (id : Ident) (type : TypeExpr) (span : Span)
  | routine (routine : Routine)

structure Program where
  definitions : List Definition

def Program.routines (p : Program) : List Routine :=
  p.definitions.filterMap fun
    | .type .. => none
    | .routine r => some r

end Reversible
