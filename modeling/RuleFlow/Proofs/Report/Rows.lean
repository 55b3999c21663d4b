import RuleFlow.Proofs.Report.Table
import RuleFlow.Report.Analysis
import RuleFlow.Report.Validation

/-!
# A line for each row of a report

Names and numbers have no pipe, and all other text in the tables of results and issues is spelled by `Table.cell`. So a
row is one line whatever was found. It has one bare pipe more than the table has columns, and is cut into the cells of
the row at them.
-/

namespace RuleFlow

open Table (IsCell Plain)

theorem Parser.Kind.plain_name (k : Kind) : Plain k.name := by cases k <;> decide

theorem Issue.Kind.plain_name (k : Kind) : Plain k.name := by cases k <;> decide

theorem Issue.Severity.plain_name (s : Severity) : Plain s.name := by cases s <;> decide

namespace Report

open Table (IsRow line barePipes pieces spaced tableLines emptyRow)

/-! ## Results -/

namespace AnalysisInput

theorem isCell_dataCell (data : Parser.Data) : IsCell (dataCell data) := by
  unfold dataCell
  split
  · exact Plain.isCell (by decide)
  · refine Table.isCell_join (Plain.isCell (by decide)) fun c hc => ?_
    obtain ⟨_, -, rfl⟩ := List.mem_map.mp hc
    exact Table.isCell_cell _

theorem isCell_detailsCell (r : Run.Result) : IsCell (detailsCell r) := by
  unfold detailsCell
  split
  · exact isCell_dataCell r.data
  · exact Table.isCell_cell _

theorem isRow_resultCells (file : Text) (r : Run.Result) : IsRow 7 (resultCells file r) where
  length_eq := rfl
  isCell := by
    have hstatus : IsCell (if r.success then "ok" else "failed") := by split <;> exact Plain.isCell (by decide)
    simp only [resultCells, List.forall_mem_cons, List.not_mem_nil, false_imp_iff, implies_true, and_true]
    exact ⟨Table.isCell_cell file, r.kind.plain_name.isCell, hstatus, (Table.plain_fixed 2 r.confidence).isCell,
      (Table.plain_ofInt r.attempts).isCell, (Table.plain_fixed 3 r.executionTime).isCell, isCell_detailsCell r⟩

/-- The results with their files, in the order of the map and of its lists. -/
def listed (rs : Run.Results) : List (Text × Run.Result) :=
  rs.toList.flatMap fun (file, results) => results.map (file, ·)

theorem resultRows_eq (rs : Run.Results) : resultRows rs = (listed rs).map fun (file, r) => resultCells file r := by
  simp [resultRows, listed, List.map_flatMap, Function.comp_def]

/-- The rows of the section of results. -/
def shownRows (rs : Run.Results) : List (List Text) :=
  if rs.isEmpty then [emptyRow resultColumns] else (listed rs).map fun (file, r) => resultCells file r

theorem isRow_of_mem_shownRows {rs : Run.Results} {cells : List Text} (h : cells ∈ shownRows rs) : IsRow 7 cells := by
  unfold shownRows at h
  split at h
  · rw [List.mem_singleton.mp h]
    exact Table.isRow_emptyRow rfl
  · obtain ⟨⟨file, r⟩, -, rfl⟩ := List.mem_map.mp h
    exact isRow_resultCells file r

theorem lines_markdown (r : AnalysisInput) :
    ∃ front, Text.lines r.markdown =
      front ++ [Text.ofString "## Parser Results", []] ++ tableLines resultColumns (shownRows r.results) := by
  have hsection : resultsSection r.results =
      "## Parser Results\n\n" ++ Table.render resultColumns (shownRows r.results) := by
    rw [resultsSection, shownRows, resultRows_eq]
  obtain ⟨front, hfront, hmarkdown⟩ : ∃ front, Text.IsWhole front ∧ r.markdown = front ++ resultsSection r.results :=
    ⟨_, .append (.append (.inr (by decide)) (.append (.inr (by decide)) (Table.isWhole_render _ _)))
      (.append (.inr (by decide)) (Table.isWhole_render _ _)), rfl⟩
  have hheading : Text.IsWhole "## Parser Results\n\n" := .inr (by decide)
  have hlines : Text.lines "## Parser Results\n\n" = [Text.ofString "## Parser Results", []] := by decide +kernel
  refine ⟨Text.lines front, ?_⟩
  rw [hmarkdown, Text.lines_append hfront, hsection, Text.lines_append hheading, hlines,
    Table.lines_render (by decide) fun _ h => (isRow_of_mem_shownRows h).oneLine, List.append_assoc]

end AnalysisInput

/-! ## Issues -/

namespace ValidationInput

theorem isCell_stepsCell (steps : List Int) : IsCell (stepsCell steps) := by
  unfold stepsCell
  split
  · exact Plain.isCell (by decide)
  · refine Table.isCell_join (Plain.isCell (by decide)) fun c hc => ?_
    obtain ⟨n, -, rfl⟩ := List.mem_map.mp hc
    exact (Table.plain_ofInt n).isCell

theorem isRow_issueCells (i : Issue) : IsRow 5 (issueCells i) where
  length_eq := rfl
  isCell := by
    simp only [issueCells, List.forall_mem_cons, List.not_mem_nil, false_imp_iff, implies_true, and_true]
    exact ⟨i.severity.plain_name.isCell, i.kind.plain_name.isCell, Table.isCell_cell _, isCell_stepsCell i.steps,
      Table.isCell_cell _⟩

/-- The rows of a table of issues. -/
def shownIssues (issues : List Issue) : List (List Text) :=
  if issues.isEmpty then [emptyRow issueColumns] else issues.map issueCells

theorem issueTable_eq (issues : List Issue) : issueTable issues = Table.render issueColumns (shownIssues issues) := by
  rw [issueTable, Table.renderOrNone, shownIssues, List.isEmpty_map]

theorem isRow_of_mem_shownIssues {issues : List Issue} {cells : List Text} (h : cells ∈ shownIssues issues) :
    IsRow 5 cells := by
  unfold shownIssues at h
  split at h
  · rw [List.mem_singleton.mp h]
    exact Table.isRow_emptyRow rfl
  · obtain ⟨i, -, rfl⟩ := List.mem_map.mp h
    exact isRow_issueCells i

theorem lines_issueTable (issues : List Issue) :
    Text.lines (issueTable issues) = tableLines issueColumns (shownIssues issues) := by
  rw [issueTable_eq]
  exact Table.lines_render (by decide) fun _ h => (isRow_of_mem_shownIssues h).oneLine

/-- The rows of the first table of a trace. -/
def fieldRows (t : Trace) (v : Validation) : List (List Text) :=
  [["Valid", if v.isValid then "yes" else "no"], ["Overall Confidence", Decimal.fixed 2 v.confidence],
    ["Completeness", Decimal.fixed 2 v.completeness], ["Steps", Text.ofNat t.steps.length]]

theorem isRow_of_mem_fieldRows {t : Trace} {v : Validation} {cells : List Text} (h : cells ∈ fieldRows t v) :
    IsRow 2 cells := by
  have hvalid : Plain (if v.isValid then "yes" else "no") := by split <;> decide
  revert cells
  simp only [fieldRows, List.forall_mem_cons, List.not_mem_nil, false_imp_iff, implies_true, and_true]
  exact ⟨Table.isRow_pair (by decide) hvalid.isCell,
    Table.isRow_pair (by decide) (Table.plain_fixed 2 v.confidence).isCell,
    Table.isRow_pair (by decide) (Table.plain_fixed 2 v.completeness).isCell,
    Table.isRow_pair (by decide) (Table.plain_ofNat t.steps.length).isCell⟩

theorem isWhole_traceSection (t : Trace) (v : Validation) : Text.IsWhole (traceSection t v) :=
  Text.isWhole_append (by decide) _

theorem lines_traceSection (t : Trace) (v : Validation) :
    ∃ fields back, fields.length = 7 ∧ Text.lines (traceSection t v) =
      Text.lines (traceHeading t) ++ fields ++ tableLines issueColumns (shownIssues v.issues) ++
        Text.ofString "Recommendations:" :: back := by
  have hsection : traceSection t v = traceHeading t ++ (Table.render ["Field", "Value"] (fieldRows t v) ++
      (issueTable v.issues ++ ("Recommendations:\n\n" ++ (recommendationLines v.recommendations ++ "\n")))) := by
    simp only [traceSection, fieldRows, List.append_assoc]
  have hheading : Text.IsWhole (traceHeading t) := Text.isWhole_append (by decide) _
  have hissues : Text.IsWhole (issueTable v.issues) := Table.isWhole_render _ _
  have hadvice : Text.IsWhole "Recommendations:\n\n" := .inr (by decide)
  have hlines : Text.lines "Recommendations:\n\n" = [Text.ofString "Recommendations:", []] := by decide +kernel
  refine ⟨tableLines ["Field", "Value"] (fieldRows t v),
    [] :: Text.lines (recommendationLines v.recommendations ++ "\n"), rfl, ?_⟩
  rw [hsection, Text.lines_append hheading, Text.lines_append (Table.isWhole_render _ _), Text.lines_append hissues,
    Text.lines_append hadvice, lines_issueTable, hlines,
    Table.lines_render (by decide) fun _ h => (isRow_of_mem_fieldRows h).oneLine]
  simp only [List.append_assoc, List.cons_append, List.nil_append]

/-- The section of a trace that has a validation. -/
theorem lines_markdown {w : ValidationInput} {t : Trace} {v : Validation} (ht : t ∈ w.traces)
    (hv : w.validations[t.id]? = some v) :
    ∃ front back, Text.lines w.markdown = front ++ Text.lines (traceSection t v) ++ back := by
  obtain ⟨before, after, htraces⟩ := List.append_of_mem ht
  -- every section is whole lines, so that the ones around it do not touch its lines
  let shown : Trace → Text := fun t => (w.validations[t.id]?).elim [] (traceSection t)
  have hshown : ∀ t, Text.IsWhole (shown t) := by
    intro t
    show Text.IsWhole ((w.validations[t.id]?).elim [] (traceSection t))
    cases w.validations[t.id]? with
    | none => exact .inl rfl
    | some v => exact isWhole_traceSection t v
  have hsections : w.traceSections = before.flatMap shown ++ (traceSection t v ++ after.flatMap shown) := by
    rw [traceSections, htraces, List.flatMap_append, List.flatMap_cons, hv]
    rfl
  obtain ⟨front, hfront, hmarkdown⟩ : ∃ front, Text.IsWhole front ∧ w.markdown = front ++ w.traceSections := by
    refine ⟨_, .append (Text.isWhole_append (by decide) _) ?_, rfl⟩
    split
    · exact .inr (by decide)
    · exact .inl rfl
  refine ⟨Text.lines front ++ Text.lines (before.flatMap shown), Text.lines (after.flatMap shown), ?_⟩
  rw [hmarkdown, Text.lines_append hfront, hsections, Text.lines_append (Text.isWhole_flatMap hshown before),
    Text.lines_append (isWhole_traceSection t v), List.append_assoc, List.append_assoc]

end ValidationInput

/-! ## Both reports -/

open AnalysisInput (resultColumns shownRows)
open ValidationInput (issueColumns issueCells shownIssues traceHeading)

/-- The report of an analysis ends with a table that has one line for each result, and the table of issues of a trace
has one line for each issue, whatever texts they hold. A line of the first one has 8 bare pipes and a line of the second
one 6, with the cells of its row between them. -/
theorem line_for_each_row :
    (∀ r : AnalysisInput,
      (∃ front, Text.lines r.markdown =
        front ++ [Text.ofString "## Parser Results", []] ++ tableLines resultColumns (shownRows r.results)) ∧
      ∀ cells ∈ shownRows r.results, barePipes (line cells) = 8 ∧
        pieces (line cells) = [] :: cells.map spaced ++ [[]]) ∧
    ∀ (w : ValidationInput) (t : Trace) (v : Validation), t ∈ w.traces → w.validations[t.id]? = some v →
      (∃ front fields back, fields.length = 7 ∧ Text.lines w.markdown =
        front ++ Text.lines (traceHeading t) ++ fields ++ tableLines issueColumns (shownIssues v.issues) ++
          Text.ofString "Recommendations:" :: back) ∧
      ∀ cells ∈ shownIssues v.issues, barePipes (line cells) = 6 ∧
        pieces (line cells) = [] :: cells.map spaced ++ [[]] := by
  refine ⟨fun r => ⟨r.lines_markdown, fun cells h => ?_⟩, fun w t v ht hv => ⟨?_, fun cells h => ?_⟩⟩
  · have hrow := AnalysisInput.isRow_of_mem_shownRows h
    exact ⟨hrow.barePipes_line, hrow.pieces_line⟩
  · obtain ⟨front, rest, hmarkdown⟩ := ValidationInput.lines_markdown ht hv
    obtain ⟨fields, back, hfields, hsection⟩ := ValidationInput.lines_traceSection t v
    refine ⟨front, fields, back ++ rest, hfields, ?_⟩
    rw [hmarkdown, hsection]
    simp only [List.append_assoc, List.cons_append]
  · have hrow := ValidationInput.isRow_of_mem_shownIssues h
    exact ⟨hrow.barePipes_line, hrow.pieces_line⟩

theorem line_for_each_row_odd_texts :
    let issue : Issue := { kind := .missingLink, severity := .high, description := "a|\n|", fix := some "\\" }
    let w : ValidationInput :=
      { time := 0, traces := [{ id := "t" }], validations := (∅ : Validations).insert "t" { issues := [issue] },
        statistics := {} }
    let row : Text := "| high | missing_link | a\\|<br>\\| | - | \\ |"
    row ∈ Text.lines w.markdown ∧ barePipes row = 6 := by
  intro issue w row
  have hv : w.validations[Text.ofString "t"]? = some { issues := [issue] } := Std.ExtTreeMap.getElem?_insert_self
  obtain ⟨⟨front, fields, back, -, hlines⟩, hcells⟩ := line_for_each_row.2 w _ _ (List.mem_singleton_self _) hv
  have hrow : line (issueCells issue) = row := by decide +kernel
  have hshown : issueCells issue ∈ shownIssues [issue] := List.mem_singleton_self _
  rw [← hrow, hlines]
  exact ⟨by simp [tableLines, shownIssues], (hcells _ hshown).1⟩

end Report

end RuleFlow
