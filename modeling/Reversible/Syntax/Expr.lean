import Reversible.Syntax.Source

/-! # Types and expressions as written

Storage names a slot of a routine, memory names what lies behind a reference held in a
slot, and an expression is built from both. Nothing here is resolved or checked.
-/

namespace Reversible

inductive TypeExpr where
  | named (id : Ident)
  | reference (target : TypeExpr) (span : Span)
  | record (members : List (Ident × TypeExpr)) (span : Span)

def TypeExpr.span : TypeExpr → Span
  | named id => id.span
  | reference _ span => span
  | record _ span => span

/-- A slot of a routine: a variable, or a member of a slot. -/
inductive Storage where
  | slot (id : Ident)
  | typed (of : Storage) (type : TypeExpr) (span : Span)
  | member (of : Storage) (member : Ident) (span : Span)

namespace Storage

def span : Storage → Span
  | slot id => id.span
  | typed _ _ span => span
  | member _ _ span => span

/-- The variable that a slot belongs to. -/
def root : Storage → Ident
  | slot id => id
  | typed of _ _ => of.root
  | member of _ _ => of.root

end Storage

/-- A place that is reached through a reference. -/
inductive Memory where
  | deref (of : Storage) (span : Span)
  | derefAgain (of : Memory) (span : Span)
  | member (of : Memory) (member : Ident) (span : Span)

namespace Memory

def span : Memory → Span
  | deref _ span => span
  | derefAgain _ span => span
  | member _ _ span => span

/-- The slot that holds the reference followed first. -/
def base : Memory → Storage
  | deref of _ => of
  | derefAgain of _ => of.base
  | member of _ _ => of.base

end Memory

/-- An expression that creates resources where it is assigned to and destroys them where it is
assigned from. -/
inductive Expr where
  | int (value : Int) (span : Span)
  | null (span : Span)
  | record (members : List (Ident × Expr)) (span : Span)
  | allocation (of : Expr) (span : Span)
  | storage (place : Storage)
  | memory (place : Memory)

def Expr.span : Expr → Span
  | int _ span => span
  | null span => span
  | record _ span => span
  | allocation _ span => span
  | storage place => place.span
  | memory place => place.span

inductive BinaryOp where
  | add | sub | xor | mul | div | mod
deriving DecidableEq, Repr

/-- A value that is computed from operands which it only reads. -/
inductive Arithmetic where
  | binary (lhs : Expr) (op : BinaryOp) (rhs : Expr) (span : Span)
  | value (of : Expr)

namespace Arithmetic

def span : Arithmetic → Span
  | binary _ _ _ span => span
  | value of => of.span

def operands : Arithmetic → List Expr
  | binary lhs _ rhs _ => [lhs, rhs]
  | value of => [of]

end Arithmetic

inductive ComparisonOp where
  | eq | ne | lt | le | gt | ge
deriving DecidableEq, Repr

structure Condition where
  lhs : Expr
  op : ComparisonOp
  rhs : Expr
  span : Span

def Condition.operands (c : Condition) : List Expr := [c.lhs, c.rhs]

end Reversible
