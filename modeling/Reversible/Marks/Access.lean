import Reversible.Marks.Tree

/-! # Following and comparing marking trees -/

namespace Reversible

namespace MarkTree

/-- Change the first member of a name, and answer with what the change answers. -/
def onMember {ρ : Type} (name : Name) (f : MarkTree → MarkTree × ρ) :
    List (Name × MarkTree) → Option (List (Name × MarkTree) × ρ)
  | [] => none
  | (key, t) :: rest =>
    if key = name then some ((key, (f t).1) :: rest, (f t).2)
    else (onMember name f rest).map fun (rest, answer) => ((key, t) :: rest, answer)

/-- Follow steps from the place `here` and change what they lead to. References on the way are
opened, and stay open also if a later step fails; a reference marked as a whole opens onto a
marked value. The answer is the value found, before its change. -/
def follow (types : TypeTable) (f : MarkTree → MarkTree) :
    MemoryPath → List MemorySegment → MarkTree → MarkTree × Except PlaceError MarkTree
  | _, [], t => (f t, .ok t)
  | here, .deref :: rest, t =>
    match t with
    | closed base marked =>
      match unmarked types base with
      | .error e => (t, .error (.type e))
      | .ok target =>
        let target := if marked then target.setMarked else target
        let (target, found) := follow types f (here.push .deref) rest target
        (opened base marked target, found)
    | opened base marked target =>
      let (target, found) := follow types f (here.push .deref) rest target
      (opened base marked target, found)
    | _ => (t, .error (.notAReference here))
  | here, .member name :: rest, t =>
    match t with
    | record members =>
      match onMember name (follow types f (here.push (.member name)) rest) members with
      | none => (t, .error (.unknownMember here name))
      | some (members, found) => (record members, found)
    | _ => (t, .error (.notARecord here name))

mutual

/-- The places at or below `here` that are marked in a tree and not in `other`; no other tree
stands for an unmarked one. A structure is named as a whole if all its members are marked and
none is in `other`. -/
def subtract (here : MemoryPath) (t : MarkTree) (other : Option MarkTree) : List MemoryPath :=
  let otherMarked := other.any isMarked
  match t with
  | leaf marked => if marked && !otherMarked then [here] else []
  | closed _ marked => if marked && !other.any isReferenceMarked then [here] else []
  | opened _ marked target =>
    if !target.isMarked || other.any isReferenceMarked then []
    else if marked then [here]
    else subtract (here.push .deref) target (other.bind target?)
  | record members =>
    if !anyMarked members then []
    else if !otherMarked && members.all (·.2.isMarked) then [here]
    else subtractMembers here members other

def subtractMembers (here : MemoryPath) (members : List (Name × MarkTree))
    (other : Option MarkTree) : List MemoryPath :=
  match members with
  | [] => []
  | (name, t) :: rest =>
    subtract (here.push (.member name)) t (other.bind (·.member? name)) ++
      subtractMembers here rest other

end

end MarkTree

end Reversible
