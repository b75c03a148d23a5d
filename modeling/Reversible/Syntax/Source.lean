/-! # Source positions, names and directions

Every node of a program carries the range of text it was read from. Names compare by
code point, which fixes the order of every listing sorted by name.
-/

namespace Reversible

/-- A range of source offsets, from `start` up to but excluding `stop`. -/
structure Span where
  start : Nat
  stop : Nat
deriving DecidableEq, Repr, Inhabited

namespace Span

/-- Spans are ordered by where they start, then by where they stop. -/
instance : Ord Span := ⟨compareLex (compareOn start) (compareOn stop)⟩

instance : Std.TransOrd Span :=
  inferInstanceAs (Std.TransCmp (compareLex (compareOn start) (compareOn stop)))

instance : Std.LawfulEqOrd Span where
  eq_of_compare {a b} h := by
    obtain ⟨s, e⟩ := a
    obtain ⟨s', e'⟩ := b
    have h : (compare s s').then (compare e e') = .eq := h
    simpa [Ordering.then_eq_eq] using h

/-- The span of text that no source holds. -/
def dummy : Span := ⟨0, 0⟩

def isEmpty (s : Span) : Bool := s.start == s.stop

/-- The number of offsets covered; a span that stops before it starts has none. -/
def length? (s : Span) : Option Nat :=
  if s.start ≤ s.stop then some (s.stop - s.start) else none

def contains (s : Span) (offset : Nat) : Bool := s.start ≤ offset && offset < s.stop

def merge (s t : Span) : Span := ⟨min s.start t.start, max s.stop t.stop⟩

def render (s : Span) : String := s!"{s.start}..{s.stop}"

end Span

abbrev Name := String

structure Ident where
  name : Name
  span : Span
deriving DecidableEq, Repr, Inhabited

/-- The two ways to run a reversible program. -/
inductive Direction where
  | forward
  | backward
deriving DecidableEq, Repr

namespace Direction

def reversed : Direction → Direction
  | forward => backward
  | backward => forward

@[simp] theorem reversed_reversed (d : Direction) : d.reversed.reversed = d := by
  cases d <;> rfl

def choose {α : Type} (d : Direction) (ahead behind : α) : α :=
  match d with
  | forward => ahead
  | backward => behind

def render : Direction → String
  | forward => "forward"
  | backward => "backward"

end Direction

end Reversible
