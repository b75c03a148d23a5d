import Reversible.Report.Code
import Reversible.Syntax.Source

/-! # Diagnostics -/

namespace Reversible

/-- A remark at a place in the source. The primary label is where the error is; secondary labels
are places that contribute to it. -/
structure Label where
  span : Span
  message : String
  isPrimary : Bool
deriving DecidableEq, Repr

/-- An error with all that is needed to show it. -/
structure Diagnostic where
  code : Code
  message : String := ""
  labels : List Label := []
  notes : List String := []
  suggestions : List String := []
deriving DecidableEq, Repr

namespace Diagnostic

def withMessage (d : Diagnostic) (message : String) : Diagnostic := { d with message }

def primary (d : Diagnostic) (span : Span) (message : String) : Diagnostic :=
  { d with labels := d.labels ++ [⟨span, message, true⟩] }

def secondary (d : Diagnostic) (span : Span) (message : String) : Diagnostic :=
  { d with labels := d.labels ++ [⟨span, message, false⟩] }

def secondaries (d : Diagnostic) (spans : List Span) (message : String) : Diagnostic :=
  { d with labels := d.labels ++ spans.map fun span => ⟨span, message, false⟩ }

def note (d : Diagnostic) (text : String) : Diagnostic := { d with notes := d.notes ++ [text] }

def suggest (d : Diagnostic) (text : String) : Diagnostic :=
  { d with suggestions := d.suggestions ++ [text] }

/-- The span of the first primary label. -/
def primarySpan? (d : Diagnostic) : Option Span := (d.labels.find? (·.isPrimary)).map (·.span)

def secondaryLabels (d : Diagnostic) : List Label := d.labels.filter fun l => !l.isPrimary

def render (d : Diagnostic) : String :=
  let label (l : Label) :=
    "\n  " ++ (if l.isPrimary then "-->" else "   ") ++ " " ++ l.span.render ++ ": " ++ l.message
  "error [" ++ d.code.render ++ "]: " ++ d.message
    ++ String.join (d.labels.map label)
    ++ String.join (d.notes.map ("\n  = note: " ++ ·))
    ++ String.join (d.suggestions.map ("\n  = help: " ++ ·))

/-- Said in place of the errors that a limit leaves out. -/
def tooMany (limit suppressed : Nat) : Diagnostic where
  code := .tooMany
  message := s!"stopped after {limit} errors, {suppressed} more not shown"
  notes := ["raise `DiagnosticConfig::error_limit` to see all of them"]

end Diagnostic

end Reversible
