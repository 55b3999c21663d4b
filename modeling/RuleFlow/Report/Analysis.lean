import RuleFlow.Json.Basic
import RuleFlow.Number.Decimal
import RuleFlow.Report.Basic
import RuleFlow.Run.History

/-!
# The analysis report

Both texts show the results of a run file by file, in byte order of the paths.
-/

namespace RuleFlow.Report

/-- A document with the results of a run. -/
structure AnalysisInput where
  time : Instant
  root : Text
  results : Run.Results
  statistics : Run.Statistics

namespace AnalysisInput

/-! ## Markdown -/

def headerSection (r : AnalysisInput) : Text :=
  "## Analysis Header\n\n" ++
    Table.render ["Field", "Value"]
      [["Generated On", r.time.stamp], ["Source", Table.cell r.root], ["Files", Text.ofNat r.results.size]]

def statisticsSection (s : Run.Statistics) : Text :=
  "## Execution Statistics\n\n" ++
    Table.render ["Metric", "Value"]
      [["Total Executions", Text.ofNat s.totalExecutions],
       ["Average Success Rate", Decimal.fixed 2 s.averageSuccessRate],
       ["Average Execution Time (s)", Decimal.fixed 3 s.averageTime],
       ["Files Processed", Text.ofNat s.totalFiles],
       ["Configured Parsers", Text.join ", " (s.configuredParsers.map (·.name))]]

/-- The columns of the table of results. -/
def resultColumns : List Text := ["File", "Parser", "Status", "Confidence", "Attempts", "Time (s)", "Details"]

/-- The findings in one cell, a line for each name, or a dash. -/
def dataCell (data : Parser.Data) : Text :=
  if data.isEmpty then "-"
  else Text.join "<br>" (data.toList.map fun (name, value) => Table.cell (name ++ ": " ++ value.toText))

/-- What was found, or why nothing was. -/
def detailsCell (r : Run.Result) : Text :=
  if r.success then dataCell r.data else Table.cell (r.errorMessage.getD "-")

def resultCells (file : Text) (r : Run.Result) : List Text :=
  [Table.cell file, r.kind.name, if r.success then "ok" else "failed", Decimal.fixed 2 r.confidence,
   Text.ofInt r.attempts, Decimal.fixed 3 r.executionTime, detailsCell r]

/-- The rows of the table of results. -/
def resultRows (rs : Run.Results) : List (List Text) :=
  rs.toList.flatMap fun (file, results) => results.map (resultCells file)

def resultsSection (rs : Run.Results) : Text :=
  "## Parser Results\n\n" ++
    Table.render resultColumns (if rs.isEmpty then [Table.emptyRow resultColumns] else resultRows rs)

def markdown (r : AnalysisInput) : Text :=
  "# Parser Analysis Report\n\n" ++ r.headerSection ++ statisticsSection r.statistics ++ resultsSection r.results

/-! ## JSON -/

def resultJson (r : Run.Result) : Json :=
  .object
    [("parser", .string r.kind.name),
     ("success", .bool r.success),
     ("confidence_score", .number (Decimal.fixed 4 r.confidence)),
     ("attempts", .int r.attempts),
     ("execution_time_seconds", .number (Decimal.fixed 6 r.executionTime)),
     ("error_message", .ofOption r.errorMessage),
     ("error_type", .ofOption r.errorType),
     ("data", r.data.toJson)]

def statisticsJson (s : Run.Statistics) : Json :=
  .object
    [("total_executions", .nat s.totalExecutions),
     ("average_success_rate", .number (Decimal.fixed 4 s.averageSuccessRate)),
     ("average_execution_time", .number (Decimal.fixed 6 s.averageTime)),
     ("total_files_processed", .nat s.totalFiles),
     ("configured_parsers", .strings (s.configuredParsers.map (·.name)))]

def toJson (r : AnalysisInput) : Json :=
  .object
    [("analysis_header", .object [("generated_on", .string r.time.stamp), ("source", .string r.root)]),
     ("statistics", statisticsJson r.statistics),
     ("results", .object (r.results.toList.map fun (file, results) => (file, .array (results.map resultJson))))]

/-- The report in the formats that are asked for. -/
def render (r : AnalysisInput) (formats : List Text) : Report :=
  .ofFormats formats (fun _ => r.markdown) (fun _ => r.toJson.render)

end AnalysisInput

end RuleFlow.Report
