import Reversible.Syntax.Routine

/-! # Pieces of small routines

Each piece is written at a place of its own, which is given by a number.
-/

namespace Reversible.Sample

def span (n : Nat) : Span := ⟨n, n + 1⟩

def slot (name : Name) (n : Nat) : Expr := .storage (.slot ⟨name, span n⟩)

def member (name member : Name) (n : Nat) : Expr :=
  .storage (.member (.slot ⟨name, span n⟩) ⟨member, span n⟩ (span n))

/-- A condition that always holds. -/
def condition (n : Nat) : Condition := ⟨.int 0 (span n), .eq, .int 0 (span n), span n⟩

def drop (name : Name) (n : Nat) : Instruction :=
  .assign (.int 5 (span n)) (slot name n) none (span n)

end Reversible.Sample
