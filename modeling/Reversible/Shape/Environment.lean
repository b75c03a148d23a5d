import Reversible.Order.NameMap
import Reversible.Shape.Ty

/-! # Type definitions and the variables of a routine

Definitions may refer to each other in any way. `TypeTable.resolve` follows names until it
reaches a type that is not a name, and reports a chain of names that has no end.
-/

namespace Reversible

/-- Why a type has no shape. -/
inductive TypeError where
  | undefined (name : Name)
  | cyclic (name : Name)
  | infinite (name : Name)
deriving DecidableEq, Repr

def TypeError.message : TypeError → String
  | undefined name => "type `" ++ name ++ "` is not defined"
  | cyclic name => "type `" ++ name ++ "` is defined in terms of itself"
  | infinite name => "type `" ++ name ++ "` contains itself without a reference"

/-- The type definitions of a program. -/
abbrev TypeTable := NameMap Ty

namespace TypeTable

/-- Follow names with at most `fuel` steps, where `seen` are the names passed so far. -/
def follow (types : TypeTable) : Nat → List Name → Ty → Except TypeError Ty
  | 0, _, .named name => .error (.cyclic name)
  | fuel + 1, seen, .named name =>
    if name ∈ seen then .error (.cyclic name)
    else match types.get? name with
      | none => .error (.undefined name)
      | some ty => follow types fuel (name :: seen) ty
  | _, _, ty => .ok ty

/-- The type behind a chain of names. Only the outermost layer is resolved: members and targets
may still be names. A chain without repetition is no longer than the table. -/
def resolve (types : TypeTable) (ty : Ty) : Except TypeError Ty :=
  follow types (types.size + 1) [] ty

end TypeTable

/-- The types of the variables of one routine, over the program's definitions. -/
structure Environment where
  types : TypeTable
  vars : NameMap Ty
deriving DecidableEq, Inhabited

namespace Environment

def ofTypes (types : TypeTable) : Environment := ⟨types, ∅⟩

/-- Set the type of a variable; an earlier one gives way. -/
def declare (env : Environment) (name : Name) (ty : Ty) : Environment :=
  { env with vars := env.vars.insert name ty }

def type? (env : Environment) (name : Name) : Option Ty := env.vars.get? name

def contains (env : Environment) (name : Name) : Bool := env.vars.contains name

end Environment

end Reversible
