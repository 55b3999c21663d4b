import RuleFlow.Proofs.Json.Access
import RuleFlow.Proofs.Json.Value
import RuleFlow.Proofs.Trace.Batch
import RuleFlow.Proofs.Trace.Score
import RuleFlow.Report.Validation

/-!
# The validation report is read back

Whoever reads the JSON text of a validation report gets back what was found about each trace. `readEntries` is such a
reader: it looks up members by name and depends on neither their order nor the spelling of strings and numbers.
-/

namespace RuleFlow

/-! ## What a reader sees -/

namespace Report

/-- An issue as the report shows it. -/
structure Finding where
  kind : Issue.Kind
  severity : Issue.Severity
  description : Text
  steps : List Int
  fix : Option Text

/-- What the report shows of a trace. -/
structure Entry where
  id : Text
  ruleName : Text
  isValid : Bool
  findings : List Finding
  recommendations : List Text

def Finding.ofIssue (i : Issue) : Finding where
  kind := i.kind
  severity := i.severity
  description := i.description
  steps := i.steps
  fix := i.fix

def Entry.ofValidation (id ruleName : Text) (v : Validation) : Entry where
  id
  ruleName
  isValid := v.isValid
  findings := v.issues.map .ofIssue
  recommendations := v.recommendations

def readKind (name : Text) : Option Issue.Kind := Issue.Kind.all.find? (·.name == name)

def readSeverity (name : Text) : Option Issue.Severity := Issue.Severity.all.find? (·.name == name)

def readFinding (j : Json) : Option Finding := do
  return {
    kind := ← readKind (← (← j.member? "issue_type").text?)
    severity := ← readSeverity (← (← j.member? "severity").text?)
    description := ← (← j.member? "description").text?
    steps := ← (← (← j.member? "affected_steps").items?).mapM Json.int?
    fix := ← (← j.member? "suggested_fix").textOrNull? }

def readEntry (j : Json) : Option Entry := do
  return {
    id := ← (← j.member? "trace_id").text?
    ruleName := ← (← j.member? "rule_name").text?
    isValid := ← (← j.member? "is_valid").flag?
    findings := ← (← (← j.member? "issues").items?).mapM readFinding
    recommendations := ← (← (← j.member? "recommendations").items?).mapM Json.text? }

/-- The entries of a report, in the order of its text. -/
def readEntries (j : Json) : Option (List Entry) := do
  (← (← j.member? "results").items?).mapM readEntry

theorem readKind_name (k : Issue.Kind) : readKind k.name = some k := by
  cases k <;> decide

theorem readSeverity_name (s : Issue.Severity) : readSeverity s.name = some s := by
  cases s <;> decide

namespace ValidationInput

theorem readFinding_issueJson (i : Issue) : readFinding (issueJson i) = some (.ofIssue i) := by
  have hkind : (issueJson i).member? "issue_type" = some (.string i.kind.name) := rfl
  have hseverity : (issueJson i).member? "severity" = some (.string i.severity.name) := rfl
  have hdescription : (issueJson i).member? "description" = some (.string i.description) := rfl
  have hsteps : (issueJson i).member? "affected_steps" = some (.array (i.steps.map .int)) := rfl
  have hfix : (issueJson i).member? "suggested_fix" = some (.ofOption i.fix) := rfl
  have horders : (i.steps.map .int).mapM Json.int? = some i.steps := by
    simpa using mapM_map_of_read Json.int?_int i.steps
  simp only [readFinding, hkind, hseverity, hdescription, hsteps, hfix, Option.bind_eq_bind, Option.bind_some,
    Json.text?,
    Json.items?, readKind_name, readSeverity_name, horders, Json.textOrNull?_ofOption]
  rfl

theorem readEntry_validationJson (id ruleName : Text) (v : Validation) :
    readEntry (validationJson id ruleName v) = some (.ofValidation id ruleName v) := by
  have hid : (validationJson id ruleName v).member? "trace_id" = some (.string id) := rfl
  have hrule : (validationJson id ruleName v).member? "rule_name" = some (.string ruleName) := rfl
  have hvalid : (validationJson id ruleName v).member? "is_valid" = some (.bool v.isValid) := rfl
  have hissues : (validationJson id ruleName v).member? "issues" = some (.array (v.issues.map issueJson)) := rfl
  have hadvice : (validationJson id ruleName v).member? "recommendations" = some (.strings v.recommendations) := rfl
  have hfindings := mapM_map_of_read readFinding_issueJson v.issues
  have htexts := Json.mapM_text?_map_string v.recommendations
  simp only [readEntry, hid, hrule, hvalid, hissues, hadvice, Option.bind_eq_bind, Option.bind_some, Json.text?,
    Json.flag?,
    Json.items?, Json.strings, hfindings, htexts]
  rfl

/-- The entries are those of the validations, each with the rule that the traces name for its id. -/
theorem readEntries_toJson (r : ValidationInput) :
    readEntries r.toJson =
      some (r.validations.toList.map fun (id, v) => .ofValidation id (ruleNameOf r.traces id) v) := by
  have hresults : r.toJson.member? "results" = some (.array
      (r.validations.toList.map fun (id, v) => validationJson id (ruleNameOf r.traces id) v)) := rfl
  simp only [readEntries, hresults, Option.bind_eq_bind, Option.bind_some, Json.items?]
  exact mapM_map_of_read (fun (id, v) => readEntry_validationJson id (ruleNameOf r.traces id) v) r.validations.toList

/-! ## The numbers of the report -/

open Json (Token)

theorem token_issueJson {i : Issue} (h : i.impact.isFinite) : (issueJson i).AllNumbers Token := by
  simp [issueJson, Json.token_ofInt, Json.token_fixed h]

theorem token_validationJson {v : Validation} (h : v.Finite) (id ruleName : Text) :
    (validationJson id ruleName v).AllNumbers Token := by
  have hissues : ∀ i ∈ v.issues, (issueJson i).AllNumbers Token := fun i hi => token_issueJson (h.impacts i hi)
  simpa [validationJson, Json.token_fixed h.confidence.isFinite, Json.token_fixed h.completeness.isFinite] using hissues

theorem token_summaryJson {s : Validation.Statistics} (hconfidence : s.averageConfidence.isFinite)
    (hcompleteness : s.averageCompleteness.isFinite) : (summaryJson s).AllNumbers Token := by
  simp [summaryJson, Json.token_ofNat, Json.token_fixed hconfidence, Json.token_fixed hcompleteness]

theorem token_toJson {r : ValidationInput} (hstatistics : r.statistics = .ofValidations r.validations)
    (h : ∀ (id : Text) (v : Validation), r.validations[id]? = some v → v.Finite) : r.toJson.AllNumbers Token := by
  obtain ⟨hconfidence, hcompleteness⟩ := Validation.Statistics.isFinite_ofValidations h
  have hsummary := token_summaryJson hconfidence hcompleteness
  rw [← hstatistics] at hsummary
  have hresults : ∀ m ∈ r.validations.toList, (validationJson m.1 (ruleNameOf r.traces m.1) m.2).AllNumbers Token :=
    fun m hm => token_validationJson (h m.1 m.2 (Std.ExtTreeMap.mem_toList_iff_getElem?_eq_some.mp hm)) _ _
  simpa [toJson, hsummary] using hresults

end ValidationInput

end Report

/-! ## Last traces -/

theorem Report.ValidationInput.ruleNameOf_of_lastIn {ts : List Trace} {t : Trace} (h : t.LastIn ts) :
    ruleNameOf ts t.id = t.ruleName := by
  obtain ⟨before, after, rfl, hafter⟩ := h
  have hnone : after.reverse.find? (·.id == t.id) = none := by
    simpa using hafter
  simp [ruleNameOf, List.find?_append, hnone]

/-! ## The report of a batch -/

open Report

/-- With the standard rules and any architecture, the report of a batch is JSON, and reading it gives one entry for each
id, in the order of ids: that of the last trace with the id, with its rule and with what its validation found. Only a
log that refuses the report of a failure leaves a batch without validations. -/
theorem Validator.readEntries_validateAll (a : Architecture) (sink : Log.Sink) (time now : Instant) (ts : List Trace) :
    let v : Validator := { architecture := a }
    (∃ vs, v.validateAll sink time ts = .ok vs ∧
      let input : ValidationInput := { time := now, traces := ts, validations := vs, statistics := .ofValidations vs }
      ∃ document entries, Json.parse (input.render [Report.jsonFormat]).json = some document ∧
        readEntries document = some entries ∧
        (entries.map (·.id)).Pairwise (fun a b => Text.order a b = .lt) ∧
        (∀ id, id ∈ entries.map (·.id) ↔ ∃ t ∈ ts, t.id = id) ∧
        ∀ e ∈ entries, ∃ (t : Trace) (validation : Validation), t.LastIn ts ∧ vs[t.id]? = some validation ∧
          e = .ofValidation t.id t.ruleName validation) ∨
    ∃ failure, v.validateAll sink time ts = .error failure ∧
      ∃ t ∈ ts, ∃ cause, v.validate sink time t = .error cause ∧
        sink.refusal (failureEntry t cause) = some failure := by
  intro v
  cases h : v.validateAll sink time ts with
  | error failure => exact .inr ⟨failure, rfl, v.validateAll_error sink time h⟩
  | ok vs =>
      have hentry := v.getElem?_validateAll sink time h
      have hfinite : ∀ (id : Text) (validation : Validation), vs[id]? = some validation → validation.Finite := by
        intro id validation hv
        obtain ⟨t, -, -, hreport⟩ := (hentry id validation).mp hv
        exact finite_validateOrReport hreport
      refine .inl ⟨vs, rfl, ?_⟩
      intro input
      have hids : (vs.toList.map fun (id, v) => Entry.ofValidation id (ValidationInput.ruleNameOf ts id) v).map (·.id) =
        vs.keys := by
        rw [List.map_map, ← Std.ExtTreeMap.map_fst_toList_eq_keys]
        rfl
      refine ⟨_, _, Json.parse_render (ValidationInput.token_toJson rfl hfinite), input.readEntries_toJson, ?_, ?_, ?_⟩
      · rw [hids]
        exact Std.ExtTreeMap.ordered_keys
      · -- an id has an entry as soon as it has a trace, since it then has a last trace
        intro id
        rw [hids, Std.ExtTreeMap.mem_keys, Std.ExtTreeMap.mem_iff_isSome_getElem?, Option.isSome_iff_exists]
        constructor
        · rintro ⟨validation, hv⟩
          obtain ⟨t, ht, rfl, -⟩ := (hentry id validation).mp hv
          exact ⟨t, ht.mem, rfl⟩
        · rintro ⟨t, ht, rfl⟩
          obtain ⟨u, hu, hid⟩ := Trace.exists_lastIn ht
          obtain ⟨validation, hreport⟩ := v.exists_validation_of_lastIn sink time h hu
          exact ⟨validation, (hentry t.id validation).mpr ⟨u, hu, hid, hreport⟩⟩
      · intro e he
        obtain ⟨⟨id, validation⟩, hmem, rfl⟩ := List.mem_map.mp he
        have hv := Std.ExtTreeMap.mem_toList_iff_getElem?_eq_some.mp hmem
        obtain ⟨t, ht, rfl, -⟩ := (hentry id validation).mp hv
        exact ⟨t, validation, ht, hv, by rw [← ValidationInput.ruleNameOf_of_lastIn ht]⟩

end RuleFlow
