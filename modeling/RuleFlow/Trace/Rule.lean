import RuleFlow.Failure
import RuleFlow.Trace.Basic
import RuleFlow.Trace.Issue

/-!
# Validation rules

A rule looks at the steps of a trace and lists issues, or fails. A rule that fails is reported as an issue itself.
-/

namespace RuleFlow

/-- A named check of the steps of a trace. -/
structure Rule where
  name : Text
  /-- A rule without a check fails whenever it is run. -/
  check : Option (List Step → Except Failure (List Issue))

namespace Rule

/-- A rule that cannot fail. -/
def total (name : Text) (check : List Step → List Issue) : Rule where
  name
  check := some fun steps => .ok (check steps)

/-- What came of a rule on the steps of a trace. -/
structure Outcome where
  ruleName : Text
  result : Except Failure (List Issue)

/-- The issues found, none if the rule failed. -/
def Outcome.issues (o : Outcome) : List Issue := o.result.toOption.getD []

/-- Why the rule failed. -/
def Outcome.error? (o : Outcome) : Option Text :=
  match o.result with
  | .ok _ => none
  | .error failure => some failure.message

/-- Runs the rule on steps. -/
def run (r : Rule) (steps : List Step) : Outcome where
  ruleName := r.name
  result :=
    match r.check with
    | some check => check steps
    | none => .error (.explained "bad_function_call")

/-- The issue that is reported in place of those of a failed rule. -/
def Outcome.failureIssue (o : Outcome) : Issue where
  kind := .incompleteTrace
  severity := .high
  description := "Validation rule '" ++ o.ruleName ++ "' failed: " ++ o.error?.getD "unknown error"

/-- What a run adds to the issues of the trace. -/
def Outcome.report (o : Outcome) : List Issue :=
  match o.result with
  | .ok issues => issues
  | .error _ => [o.failureIssue]

end Rule

end RuleFlow
