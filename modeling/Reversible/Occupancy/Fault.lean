import Reversible.Occupancy.State
import Reversible.Place.Path
import Reversible.Report.Diagnostic

/-! # What is wrong with the use of slots -/

namespace Reversible

/-- A slot in a state that does not allow what is done to it, or a variable in a state that the
routine must not end in. -/
inductive OccupancyFault where
  | conflict (name : Name) (site : Span) (state : Occupancy)
  | cannotFinalize (path : ResourcePath) (span : Span) (state : Occupancy)
  | cannotUse (path : ResourcePath) (span : Span) (state : Occupancy)
  | cannotInitialize (path : ResourcePath) (span : Span) (state : Occupancy)
  | outputNotInitialized (name : Name) (site : Span) (state : Occupancy)
  | variableNotFinalized (name : Name) (site : Span) (state : Occupancy)
deriving DecidableEq

namespace OccupancyFault

def initializerLabel : String := "potential cause: initializer here"

def finalizerLabel : String := "potential cause: finalizer here"

/-- The causes of a conflict by place. At one place a finalizer comes before an initializer. -/
def conflictCauses (state : Occupancy) : List Label :=
  (state.finalizers ∪ state.initializers).toList.flatMap fun span =>
    (if span ∈ state.finalizers then [⟨span, finalizerLabel, false⟩] else []) ++
      if span ∈ state.initializers then [⟨span, initializerLabel, false⟩] else []

/-- Labels at the causes, the first one primary, or else at the declaration. -/
def endLabels (site : Span) (causes : Causes) (message : String) : List Label :=
  match causes.toList with
  | [] => [⟨site, "declared here", true⟩]
  | first :: rest => ⟨first, message, true⟩ :: rest.map fun span => ⟨span, message, false⟩

def causeLabels (causes : Causes) (message : String) : List Label :=
  causes.toList.map fun span => ⟨span, message, false⟩

def endNote (state : Occupancy) : String :=
  "its state at the end of the routine is: " ++ state.describe

def diagnostic : OccupancyFault → Diagnostic
  | conflict name site state =>
    { code := .conflict
      message := "variable `" ++ name ++ "` has conflicting initializers and finalizers"
      labels := ⟨site, "declared here", true⟩ :: conflictCauses state
      notes := ["the variable is initialized on one incoming path and finalized on another"] }
  | cannotFinalize path span state =>
    let reason := if state.finalizers.isEmpty then "it has not been initialized"
      else "it has already been finalized"
    { code := .finalizeUninitialized
      message := "cannot finalize `" ++ path.render ++ "` as " ++ reason
      labels := ⟨span, "finalized here", true⟩ :: causeLabels state.finalizers finalizerLabel }
  | cannotUse path span state =>
    { code := .useUninitialized
      message := "cannot use `" ++ path.render ++ "` as it has not been initialized"
      labels := ⟨span, "used here", true⟩ :: causeLabels state.finalizers finalizerLabel }
  | cannotInitialize path span state =>
    { code := .initializeInitialized
      message := "cannot initialize `" ++ path.render ++ "` as it has already been initialized"
      labels :=
        ⟨span, "initialized here", true⟩ :: causeLabels state.initializers initializerLabel }
  | outputNotInitialized name site state =>
    { code := .outputNotInitialized
      message := "output `" ++ name ++ "` is not initialized at the end of the routine"
      labels := endLabels site state.finalizers finalizerLabel
      notes := [endNote state] }
  | variableNotFinalized name site state =>
    { code := .variableNotFinalized
      message := "variable `" ++ name ++ "` is not finalized at the end of the routine"
      labels := endLabels site state.initializers initializerLabel
      notes := [endNote state] }

end OccupancyFault

end Reversible
