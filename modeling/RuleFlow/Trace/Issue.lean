import RuleFlow.Text.Basic

/-!
# Issues

What validation finds wrong with a trace.
-/

namespace RuleFlow

namespace Issue

/-- How much an issue matters. Only a critical one makes a trace invalid. -/
inductive Severity where
  | critical
  | high
  | medium
  | low
  | info
  deriving DecidableEq

namespace Severity

def all : List Severity := [critical, high, medium, low, info]

def name : Severity → Text
  | critical => "critical"
  | high => "high"
  | medium => "medium"
  | low => "low"
  | info => "info"

end Severity

/-- What is wrong. -/
inductive Kind where
  | missingLink
  | brokenDependency
  | circularReference
  | incompleteTrace
  | lowConfidence
  | technologyGap
  | orphanedStep
  | duplicateStep
  deriving DecidableEq

namespace Kind

def all : List Kind :=
  [missingLink, brokenDependency, circularReference, incompleteTrace, lowConfidence, technologyGap, orphanedStep,
   duplicateStep]

def name : Kind → Text
  | missingLink => "missing_link"
  | brokenDependency => "broken_dependency"
  | circularReference => "circular_reference"
  | incompleteTrace => "incomplete_trace"
  | lowConfidence => "low_confidence"
  | technologyGap => "technology_gap"
  | orphanedStep => "orphaned_step"
  | duplicateStep => "duplicate_step"

end Kind

end Issue

/-- Something that is wrong with a trace. -/
structure Issue where
  kind : Issue.Kind
  severity : Issue.Severity
  description : Text
  /-- The orders of the steps that it concerns. -/
  steps : List Int := []
  fix : Option Text := none
  /-- What it adds to the confidence in the trace. -/
  impact : Float := 0

/-- Some issue has the severity. -/
def Issue.anyOf (severity : Issue.Severity) (issues : List Issue) : Bool := issues.any (·.severity = severity)

end RuleFlow
