import Reversible.Layout.Basic

/-! # The layout of an environment

A type is laid out by value: names are replaced by their definitions, structures become inner
slots, and every other type is a leaf. References are leaves, so a type that holds itself only
behind references has a layout; one that holds itself directly has none.
-/

namespace Reversible

namespace Layout

mutual

/-- Lay out a type, with `unfold` for the names in it. -/
def expandWith (unfold : Name → Except TypeError (Slot Ty)) : Ty → Except TypeError (Slot Ty)
  | .record members => do return .inner (← expandMembersWith unfold members)
  | .named name => unfold name
  | .int => .ok (.leaf .int)
  | .comparison => .ok (.leaf .comparison)
  | .unit => .ok (.leaf .unit)
  | .reference target => .ok (.leaf (.reference target))

def expandMembersWith (unfold : Name → Except TypeError (Slot Ty)) :
    List (Name × Ty) → Except TypeError (Layout Ty)
  | [] => .ok .nil
  | (key, ty) :: rest => do
    let slot ← expandWith unfold ty
    return cons key slot (← expandMembersWith unfold rest)

end

/-- Lay out the definition of a name, where `within` are the names whose definitions it is part
of. A nesting without repetition is no deeper than the table, which bounds `fuel`. -/
def unfoldName (types : TypeTable) : Nat → List Name → Name → Except TypeError (Slot Ty)
  | 0, _, name => .error (.infinite name)
  | fuel + 1, within, name =>
    if name ∈ within then .error (.infinite name)
    else match types.get? name with
      | none => .error (.undefined name)
      | some ty => expandWith (unfoldName types fuel (name :: within)) ty

def ofTy (types : TypeTable) (ty : Ty) : Except TypeError (Slot Ty) :=
  expandWith (unfoldName types (types.size + 1) []) ty

end Layout

/-- The slots of a routine in name order, each leaf with its resolved type. -/
def Environment.layout (env : Environment) : Except TypeError (Layout Ty) :=
  Layout.expandMembersWith (Layout.unfoldName env.types (env.types.size + 1) [])
    env.vars.entries

end Reversible
