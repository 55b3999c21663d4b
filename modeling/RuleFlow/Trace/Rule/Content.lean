import RuleFlow.Number.Decimal
import RuleFlow.Trace.Basic
import RuleFlow.Trace.Issue

/-!
# Content of steps

Each step should be found with some confidence (`confidenceThresholds`), name a plausible file (`filePathValidity`) and
say what it does (`businessLogicCompleteness`).
-/

namespace RuleFlow.Rule

/-! ## Confidence -/

/-- The least confidence in a step that raises no issue. -/
def minimumConfidence : Float := 0.3

/-- The least confidence in a step that is not critical. -/
def criticalConfidence : Float := 0.1

/-- A score as it is shown in texts. -/
def score (x : Float) : Text := Decimal.fixed 2 x

def lowConfidenceIssue (s : Step) : Issue where
  kind := .lowConfidence
  severity := if s.confidence < criticalConfidence then .critical else .high
  description := "Step has low confidence score: " ++ score s.confidence
  steps := [s.order]
  fix := some "Review parsing logic or add manual validation"
  impact := -0.2

def confidenceThresholds (steps : List Step) : List Issue :=
  (steps.filter fun s => !decide (minimumConfidence ≤ s.confidence)).map lowConfidenceIssue

/-! ## Files -/

/-- Marks of a configuration file in its path. -/
def configurationMarks : List Text := ["xml", "properties", "config"]

/-- The path has three bytes or more and either a point or the mark of a configuration file. -/
def isReasonableFile (file : Text) : Bool :=
  3 ≤ file.length && (Text.occursIn "." file || configurationMarks.any (Text.occursIn · (Text.lower file)))

def missingFileIssue (s : Step) : Issue where
  kind := .incompleteTrace
  severity := .medium
  description := "Step missing file path information"
  steps := [s.order]
  fix := some "Ensure parser provides file path information"

def suspiciousFileIssue (s : Step) : Issue where
  kind := .incompleteTrace
  severity := .low
  description := "File path looks suspicious: " ++ s.file
  steps := [s.order]
  fix := some "Verify file path is correct"

/-- The issue of the file of a step, if there is one. -/
def fileIssue? (s : Step) : Option Issue :=
  if Text.isBlank s.file then some (missingFileIssue s)
  else if isReasonableFile s.file then none
  else some (suspiciousFileIssue s)

def filePathValidity (steps : List Step) : List Issue := steps.filterMap fileIssue?

/-! ## Business logic -/

/-- The least length of a description, without the blanks around it. -/
def minimumLogicLength : Nat := 10

def missingLogicIssue (s : Step) : Issue where
  kind := .incompleteTrace
  severity := .low
  description := "Step missing business logic description"
  steps := [s.order]
  fix := some "Add business logic description for better traceability"

def briefLogicIssue (s : Step) : Issue where
  kind := .incompleteTrace
  severity := .low
  description := "Business logic description very brief"
  steps := [s.order]
  fix := some "Consider expanding business logic description"

/-- The issue of the business logic of a step, if there is one. -/
def logicIssue? (s : Step) : Option Issue :=
  if Text.isBlank s.businessLogic then some (missingLogicIssue s)
  else if (Text.trim s.businessLogic).length < minimumLogicLength then some (briefLogicIssue s)
  else none

def businessLogicCompleteness (steps : List Step) : List Issue := steps.filterMap logicIssue?

end RuleFlow.Rule
