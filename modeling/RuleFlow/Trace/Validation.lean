import RuleFlow.Calendar
import RuleFlow.Trace.Issue

/-!
# Validations

What validating a trace leads to, and the numbers drawn from the validations of many traces.
-/

namespace RuleFlow

/-- What validating a trace leads to. -/
structure Validation where
  isValid : Bool := false
  confidence : Float := 0
  completeness : Float := 0
  issues : List Issue := []
  recommendations : List Text := []
  time : Instant := 0

namespace Validation

def criticalIssues (v : Validation) : List Issue := v.issues.filter (·.severity = .critical)

def hasCriticalIssues (v : Validation) : Bool := Issue.anyOf .critical v.issues

/-- The validation of a trace that could not be validated. -/
def failed (reason : Text) (time : Instant) : Validation where
  issues :=
    [{ kind := .incompleteTrace, severity := .critical, description := "Validation failed: " ++ reason }]
  recommendations := ["Validation failed - review trace manually"]
  time

end Validation

/-- Validations by the ids of their traces. -/
abbrev Validations := Text.Map Validation

/-- Every validation found its trace valid. -/
def Validations.allValid (vs : Validations) : Bool := vs.toList.all (·.2.isValid)

namespace Validation

/-- Numbers on many validations. -/
structure Statistics where
  total : Nat := 0
  valid : Nat := 0
  invalid : Nat := 0
  averageConfidence : Float := 0
  averageCompleteness : Float := 0
  /-- The most frequent kinds of issues, with their numbers. -/
  commonIssues : List (Issue.Kind × Nat) := []

namespace Statistics

/-- How many kinds of issues are listed. -/
def commonLimit : Nat := 5

/-- A larger number comes first; of equal ones the first name does. -/
def comesBefore (a b : Issue.Kind × Nat) : Bool :=
  b.2 < a.2 || (a.2 == b.2 && Text.order a.1.name b.1.name != .gt)

/-- The kinds that occur among the issues with their numbers, the most frequent first. -/
def ranking (issues : List Issue) : List (Issue.Kind × Nat) :=
  ((Issue.Kind.all.map fun k => (k, issues.countP (·.kind = k))).filter (·.2 ≠ 0)).mergeSort comesBefore

/-- The mean of numbers, summed from left to right. -/
def mean (xs : List Float) : Float := xs.foldl (· + ·) 0 / xs.length.toFloat

def ofValidations (vs : Validations) : Statistics :=
  if vs.isEmpty then {}
  else
    let all := vs.values
    let valid := all.countP (·.isValid)
    { total := all.length
      valid
      invalid := all.length - valid
      averageConfidence := mean (all.map (·.confidence))
      averageCompleteness := mean (all.map (·.completeness))
      commonIssues := (ranking (all.flatMap (·.issues))).take commonLimit }

end Statistics

end Validation

end RuleFlow
