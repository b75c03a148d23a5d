import Reversible.Order.NameMap
import Reversible.Order.Repetition
import Reversible.Place.Mention
import Reversible.Report.Diagnostic
import Reversible.Report.Event
import Reversible.Shape.Environment

/-! # Declarations

A variable is declared by being a parameter or by being mentioned in the body. A name may be
both an input and an output, but occur only once in each list. Every declared variable has a
type in the environment.
-/

namespace Reversible

/-- The variables of a routine with the place of their first mention, its inputs and its
outputs. -/
structure Declarations where
  sites : NameMap Span
  inputs : List Ident
  outputs : List Ident
deriving DecidableEq

namespace Declarations

def isOutput (ds : Declarations) (name : Name) : Bool := ds.outputs.any (·.name == name)

def site? (ds : Declarations) (name : Name) : Option Span := ds.sites.get? name

def uniqueParams (params : List Param) : List Ident :=
  (firsts (fun p : Param => p.id.name) params).map (·.id)

/-- The variables a routine mentions: inputs, outputs, then instruction by instruction. -/
def mentions (r : Routine) : List Ident := r.params.map (·.id) ++ r.body.flatMap Instruction.roots

def ofRoutine (r : Routine) : Declarations where
  sites := (mentions r).foldl (fun sites id => sites.insertNew id.name id.span) ∅
  inputs := uniqueParams r.inputs
  outputs := uniqueParams r.outputs

end Declarations

inductive DeclarationFault where
  | repeatedParameter (param : Param) (first : Span)
  | untypedVariable (name : Name) (site : Span)
  | repeatedRoutine (id : Ident) (first : Span)

namespace DeclarationFault

def diagnostic : DeclarationFault → Diagnostic
  | repeatedParameter param first =>
    { code := .repeatedParameter
      message := "parameter `" ++ param.id.name ++ "` was declared multiple times"
      labels := [⟨param.span, "declared again here", true⟩, ⟨first, "first declared here", false⟩] }
  | untypedVariable name site =>
    { code := .untypedVariable
      message := "variable `" ++ name ++ "` has no resolved type"
      labels := [⟨site, "declared here", true⟩] }
  | repeatedRoutine id first =>
    { code := .repeatedRoutine
      message := "routine `" ++ id.name ++ "` was defined multiple times"
      labels := [⟨id.span, "defined again here", true⟩, ⟨first, "first defined here", false⟩] }

end DeclarationFault

namespace Declarations

def repeatedParams (params : List Param) : List DeclarationFault :=
  (repeats (fun p : Param => p.id.name) params).map fun (first, again) =>
    .repeatedParameter again first.span

def untyped (ds : Declarations) (env : Environment) : List (Name × Span) :=
  ds.sites.entries.filter fun (name, _) => !env.contains name

/-- Repeated inputs, repeated outputs, then variables without a type. -/
def faults (r : Routine) (env : Environment) : List DeclarationFault :=
  repeatedParams r.inputs ++ repeatedParams r.outputs ++
    ((ofRoutine r).untyped env).map fun (name, site) => .untypedVariable name site

def events (r : Routine) : List Event :=
  [.declarationsCollected r.name (ofRoutine r).sites.size]

end Declarations

def Program.repeatedRoutines (p : Program) : List DeclarationFault :=
  (repeats Ident.name (p.routines.map (·.id))).map fun (first, again) =>
    .repeatedRoutine again first.span

end Reversible
