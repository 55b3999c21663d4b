import RuleFlow.Log
import RuleFlow.Number.Decimal
import RuleFlow.Trace.Architecture
import RuleFlow.Trace.Rule.Standard
import RuleFlow.Trace.Score
import RuleFlow.Trace.Validation

/-!
# Validating traces

A validator runs its rules on a trace, compares the trace with its architecture and draws scores, recommendations and a
verdict from the issues. What it reports goes to a log, and a log that refuses an entry stops the validation of the
trace; in a list of traces this concerns the one trace only.
-/

namespace RuleFlow

/-! ## Logs that refuse entries -/

/-- A log, as far as it takes entries. -/
structure Log.Sink where
  refusal : Log.Entry → Option Failure

/-- A log that takes every entry. -/
def Log.Sink.open : Log.Sink where
  refusal _ := none

/-- Hands over the entries one by one, up to the first that is refused. -/
def Log.Sink.deliver (sink : Log.Sink) (entries : List Log.Entry) : Except Failure Unit :=
  match entries.findSome? sink.refusal with
  | some failure => .error failure
  | none => .ok ()

/-- The entries that are taken, up to the first that is refused. -/
def Log.Sink.taken (sink : Log.Sink) (entries : List Log.Entry) : List Log.Entry :=
  entries.takeWhile fun e => (sink.refusal e).isNone

/-! ## Validators -/

structure Validator where
  rules : List Rule := Rule.standard
  architecture : Architecture := {}

namespace Validator

/-- Why a rule is not taken. -/
inductive Error where
  | blankName
  | noCheck (name : Text)
  | nameTaken (name : Text)

def Error.message : Error → Text
  | blankName => "Validation rule name must not be empty"
  | noCheck name => "Validation rule '" ++ name ++ "' has no check function"
  | nameTaken name => "Validation rule already registered: " ++ name

/-- Adds a rule behind the others. Its name is not blank and no other rule has it, and it has a check. -/
def addRule (v : Validator) (rule : Rule) : Except Error Validator :=
  if Text.isBlank rule.name then .error .blankName
  else if rule.check.isNone then .error (.noCheck rule.name)
  else if v.rules.any (·.name == rule.name) then .error (.nameTaken rule.name)
  else .ok { v with rules := v.rules ++ [rule] }

/-! ## Recommendations -/

/-- The number of steps below which a trace should be expanded. -/
def minimumSteps : Nat := 3

/-- The confidence of the extraction below which a trace should be reviewed. -/
def lowExtraction : Float := 0.7

/-- Some step is a database. -/
def reachesDatabase (steps : List Step) : Bool := steps.any (·.technology == Text.ofString "Database")

/-- What may have to be done about a trace, and whether it has to. -/
def adviceTable (t : Trace) (issues : List Issue) : List (Bool × Text) :=
  [(Issue.anyOf .critical issues, "Address critical validation issues before using this flow trace"),
   (Issue.anyOf .high issues, "Review high-severity issues to improve flow accuracy"),
   (t.steps.length < minimumSteps, "Consider expanding trace to include more flow steps for completeness"),
   (t.confidence < lowExtraction, "Low extraction confidence - consider manual review and enhancement"),
   (!reachesDatabase t.steps, "Consider tracing to data layer for complete business rule understanding")]

/-- What has to be done about a trace. -/
def advice (t : Trace) (issues : List Issue) : List Text := ((adviceTable t issues).filter (·.1)).map (·.2)

/-- The recommendation for a trace about which nothing has to be done. -/
def nothingToDo : Text := "Flow trace appears complete and accurate"

def recommendations (t : Trace) (issues : List Issue) : List Text :=
  if (advice t issues).isEmpty then [nothingToDo] else advice t issues

/-! ## One trace -/

/-- How much the trace is to be trusted with these issues. -/
def confidence (t : Trace) (issues : List Issue) : Float :=
  Score.confidence t.confidence (issues.map (·.impact)) t.steps.length

/-- The issues of the rules in order, then those of the architecture. -/
def issues (v : Validator) (steps : List Step) : List Issue :=
  v.rules.flatMap (fun r => (r.run steps).report) ++ v.architecture.issues steps

/-- What the validator finds about a trace. -/
def examine (v : Validator) (time : Instant) (t : Trace) : Validation :=
  let issues := v.issues t.steps
  { isValid := !Issue.anyOf .critical issues
    confidence := confidence t issues
    completeness := Score.completeness t.steps issues
    issues
    recommendations := recommendations t issues
    time }

/-- What is reported of a rule. -/
def ruleEntry (t : Trace) (o : Rule.Outcome) : Log.Entry :=
  match o.error? with
  | some error => ⟨.error, "validator.rule.error", [("trace_id", t.id), ("rule", o.ruleName), ("error", error)]⟩
  | none => ⟨.debug, "validator.rule.complete", [("rule", o.ruleName), ("issues", Text.ofNat o.issues.length)]⟩

/-- What is reported while a trace is validated. -/
def entries (v : Validator) (t : Trace) : List Log.Entry :=
  let validation := v.examine 0 t
  ⟨.info, "validator.flow.start", [("trace_id", t.id), ("rule", t.ruleName)]⟩ ::
    (v.rules.map (fun r => ruleEntry t (r.run t.steps)) ++
      [⟨.info, "validator.flow.complete",
        [("trace_id", t.id), ("valid", Text.ofBool validation.isValid),
         ("confidence", Decimal.fixed 2 validation.confidence),
         ("issues", Text.ofNat validation.issues.length)]⟩])

/-- Validates a trace, unless the log refuses an entry. -/
def validate (v : Validator) (sink : Log.Sink) (time : Instant) (t : Trace) : Except Failure Validation := do
  sink.deliver (v.entries t)
  return v.examine time t

/-! ## Many traces -/

/-- What is reported of a trace that could not be validated. -/
def failureEntry (t : Trace) (failure : Failure) : Log.Entry :=
  ⟨.error, "validator.flow.error", [("trace_id", t.id), ("rule", t.ruleName), ("error", failure.message)]⟩

/-- Validates a trace, or says that this could not be done. Fails only when the log refuses even that. -/
def validateOrReport (v : Validator) (sink : Log.Sink) (time : Instant) (t : Trace) : Except Failure Validation :=
  match v.validate sink time t with
  | .ok validation => .ok validation
  | .error failure => do
    sink.deliver [failureEntry t failure]
    return .failed failure.message time

/-- Validates traces one after the other. The validation of a later trace replaces that of an earlier one with its
id. -/
def validateAll (v : Validator) (sink : Log.Sink) (time : Instant) (ts : List Trace) : Except Failure Validations :=
  ts.foldlM (fun vs t => return vs.insert t.id (← v.validateOrReport sink time t)) ∅

/-- What the log takes while traces are validated one after the other. -/
def allEntries (v : Validator) (sink : Log.Sink) (ts : List Trace) : List Log.Entry :=
  ts.flatMap fun t =>
    sink.taken (v.entries t) ++
      match sink.deliver (v.entries t) with
      | .ok _ => []
      | .error failure => sink.taken [failureEntry t failure]

end Validator

end RuleFlow
