import Reversible.Place.Error

/-! # Marking trees

A tree of marks has the shape of the value behind a reference. It is unfolded as far as paths
have gone: a reference stays closed until something behind it is asked for, so values of
recursive types have finite trees.
-/

namespace Reversible

/-- Marks on a value. A closed reference is marked with all that lies behind it; an open one
keeps the mark it had when it was opened. -/
inductive MarkTree where
  | leaf (marked : Bool)
  | closed (base : Ty) (marked : Bool)
  | opened (base : Ty) (marked : Bool) (target : MarkTree)
  | record (members : List (Name × MarkTree))
deriving Repr

namespace MarkTree

mutual

def beq : MarkTree → MarkTree → Bool
  | leaf m, leaf n => m == n
  | closed s m, closed t n => s == t && m == n
  | opened s m x, opened t n y => s == t && m == n && beq x y
  | record ms, record ns => beqMembers ms ns
  | _, _ => false

def beqMembers : List (Name × MarkTree) → List (Name × MarkTree) → Bool
  | [], [] => true
  | (m, x) :: ms, (n, y) :: ns => m == n && beq x y && beqMembers ms ns
  | _, _ => false

end

mutual

theorem beq_iff : ∀ x y : MarkTree, beq x y = true ↔ x = y
  | leaf m, y => by cases y <;> simp [beq]
  | closed s m, y => by cases y <;> simp [beq]
  | opened s m x, y => by cases y <;> simp [beq, beq_iff x, and_assoc]
  | record ms, y => by cases y <;> simp [beq, beqMembers_iff ms]

theorem beqMembers_iff : ∀ ms ns : List (Name × MarkTree), beqMembers ms ns = true ↔ ms = ns
  | [], ns => by cases ns <;> simp [beqMembers]
  | (m, x) :: ms, [] => by simp [beqMembers]
  | (m, x) :: ms, (n, y) :: ns => by simp [beqMembers, beq_iff x, beqMembers_iff ms]

end

instance : DecidableEq MarkTree := fun x y => decidable_of_iff _ (beq_iff x y)

mutual

/-- A structure is marked if a member is, and an open reference if its target is. -/
def isMarked : MarkTree → Bool
  | leaf marked => marked
  | closed _ marked => marked
  | opened _ _ target => target.isMarked
  | record members => anyMarked members

def anyMarked : List (Name × MarkTree) → Bool
  | [] => false
  | (_, t) :: rest => t.isMarked || anyMarked rest

end

mutual

def setMarked : MarkTree → MarkTree
  | leaf _ => leaf true
  | closed base _ => closed base true
  | opened base _ _ => closed base true
  | record members => record (setMarkedMembers members)

def setMarkedMembers : List (Name × MarkTree) → List (Name × MarkTree)
  | [] => []
  | (name, t) :: rest => (name, t.setMarked) :: setMarkedMembers rest

end

mutual

@[simp] theorem setMarked_setMarked : ∀ t : MarkTree, t.setMarked.setMarked = t.setMarked
  | leaf _ => rfl
  | closed _ _ => rfl
  | opened _ _ _ => rfl
  | record members => congrArg record (setMarkedMembers_setMarkedMembers members)

@[simp] theorem setMarkedMembers_setMarkedMembers :
    ∀ members, setMarkedMembers (setMarkedMembers members) = setMarkedMembers members
  | [] => rfl
  | (name, t) :: rest => by
    simp [setMarkedMembers, setMarked_setMarked t, setMarkedMembers_setMarkedMembers rest]

end

mutual

def render : MarkTree → String
  | leaf marked => if marked then "#" else "_"
  | closed _ marked => if marked then "&#" else "&_"
  | opened _ _ target => "&" ++ target.render
  | record members => "\x7b" ++ ", ".intercalate (renderMembers members) ++ "\x7d"

def renderMembers : List (Name × MarkTree) → List String
  | [] => []
  | (name, t) :: rest => (name ++ ": " ++ t.render) :: renderMembers rest

end

def member? (t : MarkTree) (name : Name) : Option MarkTree :=
  match t with
  | record members => members.lookup name
  | _ => none

def target? : MarkTree → Option MarkTree
  | opened _ _ target => some target
  | _ => none

/-- Whether a reference is marked as a whole. -/
def isReferenceMarked : MarkTree → Bool
  | closed _ marked => marked
  | opened _ marked _ => marked
  | _ => false

def pointingTo (base : Ty) : MarkTree := closed base false

mutual

/-- The unmarked tree of a type, with `unfold` for the names in it. -/
def unmarkedWith (unfold : Name → Except TypeError MarkTree) : Ty → Except TypeError MarkTree
  | .record members => do return record (← unmarkedMembersWith unfold members)
  | .named name => unfold name
  | .reference base => .ok (pointingTo base)
  | .int => .ok (leaf false)
  | .comparison => .ok (leaf false)
  | .unit => .ok (leaf false)

def unmarkedMembersWith (unfold : Name → Except TypeError MarkTree) :
    List (Name × Ty) → Except TypeError (List (Name × MarkTree))
  | [] => .ok []
  | (name, ty) :: rest => do
    let t ← unmarkedWith unfold ty
    return (name, t) :: (← unmarkedMembersWith unfold rest)

end

/-- The unmarked tree of the type that a name resolves to, where `within` are the names it is
part of. -/
def unfoldName (types : TypeTable) : Nat → List Name → Name → Except TypeError MarkTree
  | 0, _, name => .error (.infinite name)
  | fuel + 1, within, name =>
    if name ∈ within then .error (.infinite name)
    else do unmarkedWith (unfoldName types fuel (name :: within)) (← types.resolve (.named name))

def unmarked (types : TypeTable) (ty : Ty) : Except TypeError MarkTree :=
  unmarkedWith (unfoldName types (types.size + 1) []) ty

end MarkTree

end Reversible
