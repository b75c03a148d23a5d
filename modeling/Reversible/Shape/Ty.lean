import Reversible.Syntax.Expr

/-! # Types

A type refers to a definition by name, which is how a type can hold references to itself.
-/

namespace Reversible

/-- A type. The members of a record are in declaration order. -/
inductive Ty where
  | int
  | comparison
  | unit
  | reference (target : Ty)
  | record (members : List (Name × Ty))
  | named (name : Name)
deriving Repr

namespace Ty

mutual

def beq : Ty → Ty → Bool
  | int, int => true
  | comparison, comparison => true
  | unit, unit => true
  | reference s, reference t => beq s t
  | record ms, record ns => beqMembers ms ns
  | named m, named n => m == n
  | _, _ => false

def beqMembers : List (Name × Ty) → List (Name × Ty) → Bool
  | [], [] => true
  | (m, s) :: ms, (n, t) :: ns => m == n && beq s t && beqMembers ms ns
  | _, _ => false

end

mutual

theorem beq_iff : ∀ s t : Ty, beq s t = true ↔ s = t
  | int, t => by cases t <;> simp [beq]
  | comparison, t => by cases t <;> simp [beq]
  | unit, t => by cases t <;> simp [beq]
  | reference s, t => by cases t <;> simp [beq, beq_iff s]
  | record ms, t => by cases t <;> simp [beq, beqMembers_iff ms]
  | named m, t => by cases t <;> simp [beq]

theorem beqMembers_iff : ∀ ms ns : List (Name × Ty), beqMembers ms ns = true ↔ ms = ns
  | [], ns => by cases ns <;> simp [beqMembers]
  | (m, s) :: ms, [] => by simp [beqMembers]
  | (m, s) :: ms, (n, t) :: ns => by simp [beqMembers, beq_iff s, beqMembers_iff ms]

end

instance : DecidableEq Ty := fun s t => decidable_of_iff _ (beq_iff s t)

/-- The record of some members; without members it is the unit type. -/
def ofMembers : List (Name × Ty) → Ty
  | [] => unit
  | members => record members

mutual

def render : Ty → String
  | int => "Int"
  | comparison => "Comparison"
  | unit => "\x7b \x7d"
  | reference target => "&" ++ render target
  | record members => "\x7b" ++ ", ".intercalate (renderMembers members) ++ "\x7d"
  | named name => name

def renderMembers : List (Name × Ty) → List String
  | [] => []
  | (name, ty) :: rest => (name ++ ": " ++ render ty) :: renderMembers rest

end

end Ty

namespace TypeExpr

mutual

/-- The type that a written type stands for. `Int` is built in; every other name refers to a
definition. -/
def toTy : TypeExpr → Ty
  | named id => if id.name = "Int" then .int else .named id.name
  | reference target _ => .reference target.toTy
  | record members _ => .ofMembers (toTyMembers members)

def toTyMembers : List (Ident × TypeExpr) → List (Name × Ty)
  | [] => []
  | (id, type) :: rest => (id.name, type.toTy) :: toTyMembers rest

end

end TypeExpr

end Reversible
