import RuleFlow.Trace.Basic
import RuleFlow.Trace.Issue

/-!
# Order of steps

`stepSequence` wants the steps to be numbered 1, 2, … in the order of the list, and `dependencyConsistency` wants
each dependency to occur in the name of a component with a smaller number. `duplicateSteps` wants no two steps to be
about the same component of the same file.
-/

namespace RuleFlow.Rule

/-! ## Numbering -/

/-- The issue of a step that is not numbered as expected. -/
def gapIssue (expected found : Int) : Issue where
  kind := .missingLink
  severity := .high
  description := "Step order gap: expected " ++ Text.ofInt expected ++ ", found " ++ Text.ofInt found
  steps := [found]
  fix := some "Check for missing intermediate steps in the flow"
  impact := -0.1

/-- The gaps in steps of which the first one should be numbered `expected`. -/
def gaps (expected : Int) : List Step → List Issue
  | [] => []
  | s :: rest =>
    (if s.order = expected then [] else [gapIssue expected s.order]) ++ gaps (s.order + 1) rest

/-- The issue of a trace without steps. -/
def noStepsIssue : Issue where
  kind := .incompleteTrace
  severity := .critical
  description := "Flow trace has no steps"
  impact := -1.0

def stepSequence (steps : List Step) : List Issue :=
  if steps.isEmpty then [noStepsIssue] else gaps 1 steps

/-! ## Dependencies -/

/-- A step that comes before `s` names the dependency. -/
def isProvided (steps : List Step) (s : Step) (dependency : Text) : Bool :=
  steps.any fun p => 1 ≤ p.order && p.order < s.order && Text.occursIn dependency p.component

def brokenDependencyIssue (s : Step) (dependency : Text) : Issue where
  kind := .brokenDependency
  severity := .medium
  description := "Dependency '" ++ dependency ++ "' not found in previous steps"
  steps := [s.order]
  fix := some "Verify dependency exists or add missing step"
  impact := -0.1

def dependencyConsistency (steps : List Step) : List Issue :=
  steps.flatMap fun s =>
    (s.dependencies.filter (!isProvided steps s ·)).map (brokenDependencyIssue s)

/-! ## Duplicates -/

/-- What two steps have in common when one repeats the other. -/
def identity (s : Step) : Text × Text × Text := (s.technology, s.component, s.file)

def duplicateIssue (first s : Step) : Issue where
  kind := .duplicateStep
  severity := .medium
  description := "Duplicate step detected: " ++ s.component
  steps := [first.order, s.order]
  fix := some "Remove duplicate step or differentiate if legitimately different"

/-- The issues of the steps that repeat one of `earlier` or of each other. -/
def duplicatesAfter (earlier : List Step) : List Step → List Issue
  | [] => []
  | s :: rest =>
    (match earlier.find? (identity · = identity s) with
      | some first => [duplicateIssue first s]
      | none => []) ++ duplicatesAfter (earlier ++ [s]) rest

def duplicateSteps (steps : List Step) : List Issue := duplicatesAfter [] steps

end RuleFlow.Rule
