import Reversible.Graph.Basic
import Reversible.Order.NameMap
import Reversible.Report.Diagnostic
import Reversible.Report.Event

/-! # What is wrong with a control graph

An entry point inside an open block and an instruction outside every block are faults of the
body. A label that stands twice in a role, or in one role only, is a fault of the links.
-/

namespace Reversible

inductive GraphFault where
  | entryInOpenBlock (span : Span)
  | outsideBlock (span : Span)
  | repeatedLabel (role : LabelRole) (label : Ident) (first : Span)
  | unmatchedLabel (role : LabelRole) (label : Ident)
deriving DecidableEq, Repr

namespace GraphFault

def diagnostic : GraphFault → Diagnostic
  | entryInOpenBlock span =>
    { code := .entryInOpenBlock
      message := "entry points are only allowed to appear after an exit point"
      labels := [⟨span, "the current block has not been closed", true⟩] }
  | outsideBlock span =>
    { code := .outsideBlock
      message := "instructions are only allowed to appear within a block"
      labels := [⟨span, "not preceded by an entry point", true⟩]
      suggestions := ["add an entry point such as `L <-` before this instruction"] }
  | repeatedLabel role label first =>
    let (code, place) := match role with
      | .entry => (Code.repeatedEntryLabel, "an entry point")
      | .exit => (Code.repeatedExitLabel, "an exit point")
    { code
      message := "multiple definitions of `" ++ label.name ++ "` in " ++ place
      labels := [⟨label.span, "defined again here", true⟩, ⟨first, "first defined here", false⟩] }
  | unmatchedLabel .entry label =>
    { code := .unmatchedEntryLabel
      message := "label `" ++ label.name ++ "` has no associated exit point"
      labels := [⟨label.span, "nothing jumps to this entry point", true⟩] }
  | unmatchedLabel .exit label =>
    { code := .unmatchedExitLabel
      message := "label `" ++ label.name ++ "` has no associated entry point"
      labels := [⟨label.span, "this exit point leads nowhere", true⟩] }

end GraphFault

namespace Block

/-- The faults of a body from a point where a block is open or not, in order. -/
def cutFaults : Bool → List Instruction → List GraphFault
  | _, [] => []
  | true, i :: rest =>
    (if i.isEntryPoint then [.entryInOpenBlock i.span] else []) ++ cutFaults (!i.isExitPoint) rest
  | false, i :: rest =>
    if i.isEntryPoint then cutFaults true rest else .outsideBlock i.span :: cutFaults false rest

end Block

namespace ControlGraph

def repeatedLabels (g : ControlGraph) : List GraphFault :=
  (repeats (fun s : LabelSite => (s.role, s.label.name)) g.labelSites).map fun (first, again) =>
    .repeatedLabel again.role again.label first.label.span

/-- The labels of a role by name, each where it first stands. -/
def labelsOf (g : ControlGraph) (role : LabelRole) : NameMap Ident :=
  (g.labelSites.filter (·.role = role)).foldl (fun m s => m.insertNew s.label.name s.label) ∅

/-- The labels of a role that stand in the other role nowhere, in name order. -/
def unmatchedLabels (g : ControlGraph) (role other : LabelRole) : List GraphFault :=
  ((g.labelsOf role).entries.filter fun (name, _) => (g.blockOf? other name).isNone).map
    fun (_, label) => .unmatchedLabel role label

def faults (r : Routine) : List GraphFault :=
  let g := ofRoutine r
  Block.cutFaults true r.body ++ g.repeatedLabels ++ g.unmatchedLabels .entry .exit ++
    g.unmatchedLabels .exit .entry

def events (r : Routine) : List Event :=
  let g := ofRoutine r
  [.graphBuilt r.name g.size (g.labelsOf .entry).size]

end ControlGraph

end Reversible
