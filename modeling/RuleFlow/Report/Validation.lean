import RuleFlow.Json.Basic
import RuleFlow.Number.Decimal
import RuleFlow.Report.Basic
import RuleFlow.Trace.Basic
import RuleFlow.Trace.Validation

/-!
# The validation report

The Markdown text goes through the traces in the order given and shows the validation of each one that has one; the JSON
text goes through the validations in the order of their ids.
-/

namespace RuleFlow.Report

/-- A document with the validations of traces. -/
structure ValidationInput where
  time : Instant
  traces : List Trace
  validations : Validations
  statistics : Validation.Statistics

namespace ValidationInput

/-! ## Markdown -/

def headerSection (r : ValidationInput) : Text :=
  "## Validation Header\n\n" ++
    Table.render ["Field", "Value"]
      [["Generated On", r.time.stamp], ["Traces", Text.ofNat r.traces.length]]

/-- A line for each kind of issue that is common. -/
def commonIssueLines (s : Validation.Statistics) : Text :=
  if s.commonIssues.isEmpty then "- None\n"
  else s.commonIssues.flatMap fun (kind, n) => "- " ++ kind.name ++ ": " ++ Text.ofNat n ++ "\n"

def summarySection (s : Validation.Statistics) : Text :=
  "## Summary\n\n" ++
    Table.render ["Metric", "Value"]
      [["Total Validated", Text.ofNat s.total],
       ["Valid Flows", Text.ofNat s.valid],
       ["Invalid Flows", Text.ofNat s.invalid],
       ["Average Confidence", Decimal.fixed 2 s.averageConfidence],
       ["Average Completeness", Decimal.fixed 2 s.averageCompleteness]] ++
    "### Common Issues\n\n" ++ commonIssueLines s ++ "\n"

/-- The columns of the table of issues. -/
def issueColumns : List Text := ["Severity", "Type", "Description", "Steps", "Suggested Fix"]

/-- The orders of the affected steps, or a dash. -/
def stepsCell (steps : List Int) : Text :=
  if steps.isEmpty then "-" else Text.join ", " (steps.map Text.ofInt)

def issueCells (i : Issue) : List Text :=
  [i.severity.name, i.kind.name, Table.cell i.description, stepsCell i.steps, Table.cell (i.fix.getD "-")]

def issueTable (issues : List Issue) : Text := Table.renderOrNone issueColumns (issues.map issueCells)

/-- The title of a trace: its id, and its rule if that has a name. -/
def traceTitle (t : Trace) : Text := if t.ruleName.isEmpty then t.id else t.id ++ ": " ++ t.ruleName

def traceHeading (t : Trace) : Text := "### " ++ traceTitle t ++ "\n\n"

def recommendationLines (recommendations : List Text) : Text :=
  recommendations.flatMap fun r => "- " ++ r ++ "\n"

def traceSection (t : Trace) (v : Validation) : Text :=
  traceHeading t ++
    Table.render ["Field", "Value"]
      [["Valid", if v.isValid then "yes" else "no"],
       ["Overall Confidence", Decimal.fixed 2 v.confidence],
       ["Completeness", Decimal.fixed 2 v.completeness],
       ["Steps", Text.ofNat t.steps.length]] ++
    issueTable v.issues ++ "Recommendations:\n\n" ++ recommendationLines v.recommendations ++ "\n"

/-- The sections of the traces that have a validation. -/
def traceSections (r : ValidationInput) : Text :=
  r.traces.flatMap fun t => (r.validations[t.id]?).elim [] (traceSection t)

def markdown (r : ValidationInput) : Text :=
  "# Flow Validation Report\n\n" ++ r.headerSection ++ summarySection r.statistics ++ "## Traces\n\n" ++
    (if r.validations.isEmpty then ("- None\n" : Text) else []) ++ r.traceSections

/-! ## JSON -/

def issueJson (i : Issue) : Json :=
  .object
    [("issue_type", .string i.kind.name),
     ("severity", .string i.severity.name),
     ("description", .string i.description),
     ("affected_steps", .array (i.steps.map .int)),
     ("suggested_fix", .ofOption i.fix),
     ("confidence_impact", .number (Decimal.fixed 2 i.impact))]

def validationJson (id ruleName : Text) (v : Validation) : Json :=
  .object
    [("trace_id", .string id),
     ("rule_name", .string ruleName),
     ("is_valid", .bool v.isValid),
     ("overall_confidence", .number (Decimal.fixed 4 v.confidence)),
     ("completeness_score", .number (Decimal.fixed 4 v.completeness)),
     ("validated_at", .string v.time.stamp),
     ("issues", .array (v.issues.map issueJson)),
     ("recommendations", .strings v.recommendations)]

def summaryJson (s : Validation.Statistics) : Json :=
  .object
    [("total_validated", .nat s.total),
     ("valid_flows", .nat s.valid),
     ("invalid_flows", .nat s.invalid),
     ("average_confidence", .number (Decimal.fixed 4 s.averageConfidence)),
     ("average_completeness", .number (Decimal.fixed 4 s.averageCompleteness)),
     ("common_issues", .object (s.commonIssues.map fun (kind, n) => (kind.name, .nat n)))]

/-- The rule of the last trace with the id, no name without one. -/
def ruleNameOf (traces : List Trace) (id : Text) : Text :=
  (traces.reverse.find? (·.id == id)).elim [] (·.ruleName)

def toJson (r : ValidationInput) : Json :=
  .object
    [("generated_on", .string r.time.stamp),
     ("summary", summaryJson r.statistics),
     ("results", .array (r.validations.toList.map fun (id, v) => validationJson id (ruleNameOf r.traces id) v))]

/-- The report in the formats that are asked for. -/
def render (r : ValidationInput) (formats : List Text) : Report :=
  .ofFormats formats (fun _ => r.markdown) (fun _ => r.toJson.render)

end ValidationInput

end RuleFlow.Report
