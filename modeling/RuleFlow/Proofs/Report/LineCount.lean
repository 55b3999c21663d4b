import RuleFlow.Proofs.Calendar
import RuleFlow.Proofs.Report.Rows
import RuleFlow.Proofs.Trace.Batch
import RuleFlow.Proofs.Trace.Verdict

/-!
# How many lines a validation report has

Almost everything that is written about a trace stays in its line. The exception is the title: the id of the trace and
its rule are written as they are, and each line feed in them starts another line. So the number of lines is the one that
the numbers of traces, issues, recommendations and common kinds of issues make (`lineCount`) exactly if no id and no
rule has a line feed.
-/

namespace RuleFlow

open Table (Plain)

namespace Report.ValidationInput

/-! ## Sections -/

theorem count_feed_headerSection (r : ValidationInput) : r.headerSection.count 10 = 7 := by
  have hrows : ∀ cells ∈ ([["Generated On", r.time.stamp], ["Traces", Text.ofNat r.traces.length]] : List (List Text)),
      Table.IsRow 2 cells := by
    simp only [List.forall_mem_cons, List.not_mem_nil, false_imp_iff, implies_true, and_true]
    exact ⟨Table.isRow_pair (by decide) r.time.plain_stamp.isCell,
      Table.isRow_pair (by decide) (Table.plain_ofNat _).isCell⟩
  have hheading : (Text.ofString "## Validation Header\n\n").count 10 = 2 := by decide
  rw [headerSection, List.count_append, hheading, Table.count_feed_render ["Field", "Value"] (by decide) hrows]
  rfl

theorem count_feed_commonIssueLines (s : Validation.Statistics) :
    (commonIssueLines s).count 10 = max 1 s.commonIssues.length := by
  unfold commonIssueLines
  split
  · rename_i h
    rw [List.isEmpty_iff.mp h]
    decide
  · rename_i h
    have hlines : ∀ common ∈ s.commonIssues,
        ("- " ++ common.1.name ++ ": " ++ Text.ofNat common.2 ++ "\n" : Text).count 10 = 1 := by
      intro common _
      have hline : Plain ("- " ++ common.1.name ++ ": " ++ Text.ofNat common.2) :=
        .append (.append (.append (by decide) common.1.plain_name) (by decide)) (Table.plain_ofNat _)
      rw [List.count_append, hline.count_feed]
      decide
    have hcount := Text.count_feed_flatMap hlines
    have hpos : 0 < s.commonIssues.length := List.length_pos_iff.mpr (by simpa using h)
    rw [hcount]
    omega

theorem count_feed_summarySection (s : Validation.Statistics) :
    (summarySection s).count 10 = 13 + max 1 s.commonIssues.length := by
  have hrows : ∀ cells ∈ ([["Total Validated", Text.ofNat s.total], ["Valid Flows", Text.ofNat s.valid],
      ["Invalid Flows", Text.ofNat s.invalid], ["Average Confidence", Decimal.fixed 2 s.averageConfidence],
      ["Average Completeness", Decimal.fixed 2 s.averageCompleteness]] : List (List Text)), Table.IsRow 2 cells := by
    simp only [List.forall_mem_cons, List.not_mem_nil, false_imp_iff, implies_true, and_true]
    exact ⟨Table.isRow_pair (by decide) (Table.plain_ofNat _).isCell,
      Table.isRow_pair (by decide) (Table.plain_ofNat _).isCell,
      Table.isRow_pair (by decide) (Table.plain_ofNat _).isCell,
        Table.isRow_pair (by decide) (Table.plain_fixed _ _).isCell,
      Table.isRow_pair (by decide) (Table.plain_fixed _ _).isCell⟩
  have htable := Table.count_feed_render ["Metric", "Value"] (by decide) hrows
  have hheading : (Text.ofString "## Summary\n\n").count 10 = 2 := by decide
  have hcommon : (Text.ofString "### Common Issues\n\n").count 10 = 2 := by decide
  have hfeed : (Text.ofString "\n").count 10 = 1 := by decide
  simp only [summarySection, List.count_append, hheading, htable, hcommon, hfeed,
    count_feed_commonIssueLines, List.length_cons, List.length_nil]
  omega

/-- The line feeds that a trace brings into its title. -/
def titleFeeds (t : Trace) : Nat := t.id.count 10 + t.ruleName.count 10

theorem count_feed_traceHeading (t : Trace) : (traceHeading t).count 10 = 2 + titleFeeds t := by
  have hopen : (Text.ofString "### ").count 10 = 0 := by decide
  have hcolon : (Text.ofString ": ").count 10 = 0 := by decide
  have hclose : (Text.ofString "\n\n").count 10 = 2 := by decide
  have htitle : (traceTitle t).count 10 = titleFeeds t := by
    unfold traceTitle titleFeeds
    split
    · rename_i h
      rw [List.isEmpty_iff.mp h, List.count_nil, Nat.add_zero]
    · rw [List.count_append, List.count_append, hcolon, Nat.add_zero]
  rw [traceHeading, List.count_append, List.count_append, hopen, htitle, hclose]
  omega

theorem count_feed_recommendationLines {recommendations : List Text} (h : ∀ r ∈ recommendations, Plain r) :
    (recommendationLines recommendations).count 10 = recommendations.length := by
  refine Text.count_feed_flatMap fun r hr => ?_
  have hline : Plain ("- " ++ r) := .append (by decide) (h r hr)
  rw [List.count_append, hline.count_feed]
  decide

theorem length_shownIssues (issues : List Issue) : (shownIssues issues).length = max 1 issues.length := by
  unfold shownIssues
  split
  · rename_i h
    rw [List.isEmpty_iff.mp h]
    rfl
  · rename_i h
    have hpos : 0 < issues.length := List.length_pos_iff.mpr (by simpa using h)
    rw [List.length_map]
    omega

theorem count_feed_issueTable (issues : List Issue) : (issueTable issues).count 10 = max 1 issues.length + 3 := by
  rw [← Text.length_lines, lines_issueTable]
  simp [Table.tableLines, length_shownIssues]

theorem count_feed_traceSection (t : Trace) {v : Validation} (h : ∀ r ∈ v.recommendations, Plain r) :
    (traceSection t v).count 10 = 15 + max 1 v.issues.length + v.recommendations.length + titleFeeds t := by
  have hrows : ∀ cells ∈ fieldRows t v, Table.IsRow 2 cells := fun _ => isRow_of_mem_fieldRows
  have hfields : (Table.render ["Field", "Value"] (fieldRows t v)).count 10 = 7 :=
    Table.count_feed_render _ (by decide) hrows
  have hadvice : (Text.ofString "Recommendations:\n\n").count 10 = 2 := by decide
  have hfeed : (Text.ofString "\n").count 10 = 1 := by decide
  rw [traceSection, ← fieldRows]
  simp only [List.count_append, count_feed_traceHeading, hfields, count_feed_issueTable, hadvice,
    count_feed_recommendationLines h,
    hfeed]
  omega

/-! ## The report -/

/-- The numbers of issues and of recommendations of each trace that has a section. -/
def shownCounts (r : ValidationInput) : List (Nat × Nat) :=
  r.traces.filterMap fun t => r.validations[t.id]?.map fun v => (v.issues.length, v.recommendations.length)

/-- The number of lines that these numbers make, besides that of common kinds of issues. -/
def lineCount (common : Nat) (shown : List (Nat × Nat)) : Nat :=
  24 + max 1 common + (if shown.isEmpty then 1 else 0) +
    (shown.map fun (issues, recommendations) => 15 + max 1 issues + recommendations).sum

/-- Each trace has a validation whose recommendations are plain. -/
structure Complete (r : ValidationInput) : Prop where
  isEmpty_eq : r.validations.isEmpty = r.traces.isEmpty
  exists_validation : ∀ t ∈ r.traces, ∃ v, r.validations[t.id]? = some v ∧ ∀ text ∈ v.recommendations, Plain text

section

variable {r : ValidationInput} (h : r.Complete)

include h

theorem length_shownCounts : r.shownCounts.length = r.traces.length := by
  have hvalidations := h.exists_validation
  rw [shownCounts]
  generalize r.traces = ts at hvalidations
  induction ts with
  | nil => rfl
  | cons t ts ih =>
      obtain ⟨⟨v, hv, -⟩, hts⟩ := List.forall_mem_cons.mp hvalidations
      rw [List.filterMap_cons, hv]
      simpa using ih hts

theorem count_feed_traceSections : r.traceSections.count 10 =
    (r.shownCounts.map fun (issues, recommendations) => 15 + max 1 issues + recommendations).sum +
      (r.traces.map titleFeeds).sum := by
  have hvalidations := h.exists_validation
  rw [traceSections, shownCounts]
  generalize r.traces = ts at hvalidations
  induction ts with
  | nil => rfl
  | cons t ts ih =>
      obtain ⟨⟨v, hv, hplain⟩, hts⟩ := List.forall_mem_cons.mp hvalidations
      rw [List.flatMap_cons, List.count_append, ih hts, List.filterMap_cons, hv]
      simp only [Option.elim_some, Option.map_some, count_feed_traceSection t hplain, List.map_cons, List.sum_cons]
      omega

theorem length_lines_markdown : (Text.lines r.markdown).length =
    lineCount r.statistics.commonIssues.length r.shownCounts + (r.traces.map titleFeeds).sum := by
  have htitle : (Text.ofString "# Flow Validation Report\n\n").count 10 = 2 := by decide
  have htraces : (Text.ofString "## Traces\n\n").count 10 = 2 := by decide
  -- the report says that there are no validations exactly when it shows no trace
  have hnone : (if r.validations.isEmpty then ("- None\n" : Text) else []).count 10 =
      if r.shownCounts.isEmpty then 1 else 0 := by
    have hempty : r.shownCounts.isEmpty = r.validations.isEmpty := by
      rw [h.isEmpty_eq, Bool.eq_iff_iff, List.isEmpty_iff_length_eq_zero, List.isEmpty_iff_length_eq_zero,
        length_shownCounts h]
    rw [hempty]
    split <;> decide
  rw [Text.length_lines, markdown, lineCount]
  simp only [List.count_append, htitle, htraces, hnone, count_feed_headerSection, count_feed_summarySection,
    count_feed_traceSections h]
  omega

end

theorem sum_titleFeeds_eq_zero_iff {ts : List Trace} :
    (ts.map titleFeeds).sum = 0 ↔ ∀ t ∈ ts, 10 ∉ t.id ∧ 10 ∉ t.ruleName := by
  induction ts with
  | nil => simp
  | cons t ts ih =>
      rw [List.map_cons, List.sum_cons, Nat.add_eq_zero_iff, ih, List.forall_mem_cons, titleFeeds, Nat.add_eq_zero_iff,
        List.count_eq_zero, List.count_eq_zero]

end Report.ValidationInput

/-! ## Batches -/

namespace Validator

open Report (ValidationInput)
open Report.ValidationInput (lineCount titleFeeds)

theorem plain_of_mem_recommendations {t : Trace} {issues : List Issue} :
    ∀ text ∈ recommendations t issues, Plain text := by
  have hadvice : ∀ row ∈ adviceTable t issues, Plain row.2 := by
    simp only [adviceTable, List.forall_mem_cons, List.not_mem_nil, false_imp_iff, implies_true, and_true]
    decide +kernel
  intro text htext
  unfold recommendations at htext
  split at htext
  · rw [List.mem_singleton.mp htext]
    decide
  · exact hadvice _ (mem_advice.mp htext)

section

variable {v : Validator} {sink : Log.Sink} {time : Instant} {ts : List Trace} {vs : Validations}

theorem plain_of_validateOrReport {t : Trace} {validation : Validation}
    (h : v.validateOrReport sink time t = .ok validation) :
    ∀ text ∈ validation.recommendations, Plain text := by
  rcases validateOrReport_cases h with ⟨-, rfl⟩ | ⟨cause, -, rfl⟩
  · exact plain_of_mem_recommendations
  · exact List.forall_mem_singleton.mpr (by decide)

theorem complete_validateAll (h : v.validateAll sink time ts = .ok vs) (now : Instant)
    (statistics : Validation.Statistics) :
    ValidationInput.Complete { time := now, traces := ts, validations := vs, statistics } where
  isEmpty_eq := by
    cases ts with
    | nil =>
        cases h
        rfl
    | cons t ts =>
        obtain ⟨_, _, -, hv⟩ := v.exists_getElem?_validateAll sink time h (List.mem_cons_self)
        have hne : vs ≠ ∅ := by
          rintro rfl
          cases hv
        exact Bool.eq_false_iff.mpr (mt Std.ExtTreeMap.isEmpty_iff.mp hne)
  exists_validation t ht := by
    obtain ⟨u, validation, hreport, hv⟩ := v.exists_getElem?_validateAll sink time h ht
    exact ⟨validation, hv, plain_of_validateOrReport hreport⟩

end

/-- With the standard rules and any architecture, the report of a batch has the lines that the numbers of its traces,
issues, recommendations and common kinds of issues make, and one more for each line feed in an id or a rule. So texts of
traces add no line exactly if no id and no rule has a line feed. Only a log that refuses the report of a failure leaves
a batch without validations. -/
theorem length_lines_validateAll (a : Architecture) (sink : Log.Sink) (time now : Instant) (ts : List Trace) :
    let v : Validator := { architecture := a }
    (∃ vs, v.validateAll sink time ts = .ok vs ∧
      let input : ValidationInput := { time := now, traces := ts, validations := vs, statistics := .ofValidations vs }
      let length := (Text.lines (input.render [Report.markdownFormat]).markdown).length
      let expected := lineCount input.statistics.commonIssues.length input.shownCounts
      input.shownCounts.length = ts.length ∧
      length = expected + (ts.map fun t => t.id.count 10 + t.ruleName.count 10).sum ∧
      (length = expected ↔ ∀ t ∈ ts, 10 ∉ t.id ∧ 10 ∉ t.ruleName)) ∨
    ∃ failure, v.validateAll sink time ts = .error failure ∧
      ∃ t ∈ ts, ∃ cause, v.validate sink time t = .error cause ∧
        sink.refusal (failureEntry t cause) = some failure := by
  intro v
  cases h : v.validateAll sink time ts with
  | error failure => exact .inr ⟨failure, rfl, v.validateAll_error sink time h⟩
  | ok vs =>
      refine .inl ⟨vs, rfl, ?_⟩
      intro input length expected
      have hcomplete : input.Complete := complete_validateAll h now _
      have hlength : length = expected + (ts.map titleFeeds).sum := ValidationInput.length_lines_markdown hcomplete
      refine ⟨ValidationInput.length_shownCounts hcomplete, hlength, ?_⟩
      rw [← ValidationInput.sum_titleFeeds_eq_zero_iff]
      omega

theorem validateAll_open_singleton (v : Validator) (time : Instant) (t : Trace) :
    v.validateAll .open time [t] = .ok ((∅ : Validations).insert t.id (v.examine time t)) := by
  have hdeliver : Log.Sink.open.deliver (v.entries t) = .ok () := by
    rcases Log.Sink.open.deliver_cases (v.entries t) with hok | ⟨_, -, _, -, hrefused⟩
    · exact hok
    · cases hrefused
  have hvalidate : v.validate .open time t = .ok (v.examine time t) := by
    rw [validate, hdeliver]
    rfl
  rw [validateAll, List.foldlM_cons, validateOrReport_of_ok hvalidate]
  rfl

/-- Nothing that is found about a trace depends on its id. -/
theorem examine_id (v : Validator) (time : Instant) (t : Trace) (id : Text) :
    v.examine time { t with id } = v.examine time t := rfl

/-- Two batches with the same numbers, and a longer report of the second one: the second line of its id is a heading. -/
theorem id_starts_heading :
    let report (id : Text) (vs : Validations) : ValidationInput :=
      { time := 0, traces := [{ id }], validations := vs, statistics := .ofValidations vs }
    ∃ vs ws, ({} : Validator).validateAll .open 0 [{ id := "a" }] = .ok vs ∧
      ({} : Validator).validateAll .open 0 [{ id := "a\n# b" }] = .ok ws ∧
      (report "a" vs).shownCounts = (report "a\n# b" ws).shownCounts ∧
      (report "a" vs).statistics.commonIssues = (report "a\n# b" ws).statistics.commonIssues ∧
      (Text.lines (report "a\n# b" ws).markdown).length = (Text.lines (report "a" vs).markdown).length + 1 ∧
      Text.ofString "# b" ∈ Text.lines (report "a\n# b" ws).markdown := by
  intro report
  have hvs := validateAll_open_singleton {} 0 { id := "a" }
  have hws := validateAll_open_singleton {} 0 { id := "a\n# b" }
  rw [examine_id {} 0 { id := "a" } "a\n# b"] at hws
  generalize ({} : Validator).examine 0 { id := "a" } = found at hvs hws
  let r := report "a" ((∅ : Validations).insert "a" found)
  let s := report "a\n# b" ((∅ : Validations).insert "a\n# b" found)
  have hcounts : r.shownCounts = s.shownCounts := rfl
  have hcommon : r.statistics.commonIssues = s.statistics.commonIssues := rfl
  refine ⟨_, _, hvs, hws, hcounts, hcommon, ?_, ?_⟩
  · have hr : r.Complete := complete_validateAll hvs 0 _
    have hs : s.Complete := complete_validateAll hws 0 _
    have hnone : (r.traces.map titleFeeds).sum = 0 :=
      show (([{ id := "a" }] : List Trace).map titleFeeds).sum = 0 by decide
    have hone : (s.traces.map titleFeeds).sum = 1 :=
      show (([{ id := "a\n# b" }] : List Trace).map titleFeeds).sum = 1 by decide
    have hlines := ValidationInput.length_lines_markdown hs
    rw [← hcounts, ← hcommon, hone] at hlines
    rw [hlines, ValidationInput.length_lines_markdown hr, hnone]
  · have hheading : Text.ofString "# b" ∈ Text.lines (ValidationInput.traceHeading { id := "a\n# b" }) := by
      decide +kernel
    have hv : s.validations[Text.ofString "a\n# b"]? = some found := Std.ExtTreeMap.getElem?_insert_self
    have ht : ({ id := "a\n# b" } : Trace) ∈ s.traces := List.mem_singleton_self _
    obtain ⟨front, back, hlines⟩ := ValidationInput.lines_markdown ht hv
    obtain ⟨fields, rest, -, hsection⟩ := ValidationInput.lines_traceSection { id := "a\n# b" } found
    show Text.ofString "# b" ∈ Text.lines s.markdown
    rw [hlines, hsection]
    simp [hheading]

end Validator

end RuleFlow
