import Reversible.Syntax.Source

/-! # Resource paths and memory paths

A resource path names a slot: a variable and then members, as in `p.pos.x`. A memory path
names a place behind a reference: a resource path and then steps, as in `p&.next&`.
-/

namespace Reversible

/-- A variable and the members taken from it in turn. -/
structure ResourcePath where
  root : Name
  members : List Name
deriving DecidableEq, Repr

namespace ResourcePath

/-- Paths are ordered name by name, and a path comes before its extensions. -/
instance : Ord ResourcePath := ⟨compareLex (compareOn root) (compareOn members)⟩

instance : Std.TransOrd ResourcePath :=
  inferInstanceAs (Std.TransCmp (compareLex (compareOn root) (compareOn members)))

instance : Std.LawfulEqOrd ResourcePath where
  eq_of_compare {p q} h := by
    obtain ⟨v, ms⟩ := p
    obtain ⟨v', ms'⟩ := q
    have h : (compare v v').then (compare ms ms') = .eq := h
    simpa [Ordering.then_eq_eq] using h

def ofVariable (name : Name) : ResourcePath := ⟨name, []⟩

def names (p : ResourcePath) : List Name := p.root :: p.members

def length (p : ResourcePath) : Nat := p.names.length

def push (p : ResourcePath) (member : Name) : ResourcePath :=
  { p with members := p.members ++ [member] }

/-- The first `n` names of a path, and at least the variable. -/
def take (p : ResourcePath) (n : Nat) : ResourcePath :=
  { p with members := p.members.take (n - 1) }

def render (p : ResourcePath) : String := ".".intercalate p.names

end ResourcePath

/-- A step from a place in memory: through the reference that is there, or to a member. -/
inductive MemorySegment where
  | deref
  | member (name : Name)
deriving DecidableEq, Repr

namespace MemorySegment

def member? : MemorySegment → Option Name
  | deref => none
  | member name => some name

/-- Going through a reference comes before every member. -/
instance : Ord MemorySegment := ⟨compareOn member?⟩

def render : MemorySegment → String
  | deref => "&"
  | member name => "." ++ name

end MemorySegment

/-- A slot and the steps taken from the reference that it holds. Without steps it is the
reference itself. -/
structure MemoryPath where
  resource : ResourcePath
  segments : List MemorySegment
deriving DecidableEq, Repr

namespace MemoryPath

instance : Ord MemoryPath := ⟨compareLex (compareOn resource) (compareOn segments)⟩

def ofResource (resource : ResourcePath) : MemoryPath := ⟨resource, []⟩

def push (p : MemoryPath) (segment : MemorySegment) : MemoryPath :=
  { p with segments := p.segments ++ [segment] }

def render (p : MemoryPath) : String :=
  p.resource.render ++ String.join (p.segments.map MemorySegment.render)

end MemoryPath

end Reversible
