import Reversible.Order.SortedSet
import Reversible.Syntax.Source

/-! # Occupancy

What is known about a slot at a point of a routine: nothing, that it is initialized, that it is
finalized, or that it is one on some ways to the point and the other on others. Each state but
the first comes with the places that caused it.
-/

namespace Reversible

/-- The places that brought a slot into a state. -/
abbrev Causes := SortedSet Span

inductive Occupancy where
  | unknown
  | initialized (causes : Causes)
  | finalized (causes : Causes)
  | conflict (initializers finalizers : Causes)
deriving DecidableEq

namespace Occupancy

instance : Inhabited Occupancy := ⟨unknown⟩

def initializedAt (span : Span) : Occupancy := initialized (.singleton span)

def finalizedAt (span : Span) : Occupancy := finalized (.singleton span)

def initializers : Occupancy → Causes
  | unknown => ∅
  | initialized causes => causes
  | finalized _ => ∅
  | conflict inits _ => inits

def finalizers : Occupancy → Causes
  | unknown => ∅
  | initialized _ => ∅
  | finalized causes => causes
  | conflict _ fins => fins

def isUnknown : Occupancy → Bool
  | unknown => true
  | _ => false

def isInitialized : Occupancy → Bool
  | initialized _ => true
  | _ => false

def isFinalized : Occupancy → Bool
  | finalized _ => true
  | _ => false

def isConflict : Occupancy → Bool
  | conflict .. => true
  | _ => false

/-- What is known where two ways join. -/
def meet : Occupancy → Occupancy → Occupancy
  | unknown, b => b
  | a, unknown => a
  | initialized s, initialized t => initialized (s ∪ t)
  | finalized s, finalized t => finalized (s ∪ t)
  | initialized s, finalized t => conflict s t
  | finalized s, initialized t => conflict t s
  | a, b => conflict (a.initializers ∪ b.initializers) (a.finalizers ∪ b.finalizers)

/-- What is known after a slot is brought into a state. The new state replaces the old one,
except that causes of one kind add up and a conflict stays a conflict. -/
def overwrite : (old new : Occupancy) → Occupancy
  | initialized s, initialized t => initialized (s ∪ t)
  | finalized s, finalized t => finalized (s ∪ t)
  | conflict inits fins, new => conflict (inits ∪ new.initializers) (fins ∪ new.finalizers)
  | _, new => new

def ofCauses (inits fins : Causes) : Occupancy :=
  match inits.isEmpty, fins.isEmpty with
  | true, true => unknown
  | false, true => initialized inits
  | true, false => finalized fins
  | false, false => conflict inits fins

/-- The state of a structure, from the states of the leaves below it. -/
def synthesize (leaves : List Occupancy) : Occupancy :=
  ofCauses (leaves.foldl (fun s o => s ∪ o.initializers) ∅)
    (leaves.foldl (fun s o => s ∪ o.finalizers) ∅)

def render : Occupancy → String
  | unknown => "?"
  | initialized _ => "+"
  | finalized _ => "-"
  | conflict .. => "!"

def describe : Occupancy → String
  | unknown => "never assigned"
  | initialized _ => "initialized"
  | finalized _ => "finalized"
  | conflict .. => "conflicting"

end Occupancy

end Reversible
