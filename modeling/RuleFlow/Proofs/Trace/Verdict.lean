import RuleFlow.Proofs.Trace.Batch
import RuleFlow.Proofs.Trace.Severity

/-!
# The verdict on a trace

What the standard rules and any architecture make of a trace in the end: whether it is valid, and whether nothing has to
be done about it (`Trace.Complete`). Both are told from the trace alone, without its issues.
-/

namespace RuleFlow

namespace Validator

/-! ## The issues of the standard rules -/

variable {a : Architecture} {steps : List Step} {t : Trace} {time : Instant} {issues : List Issue}

theorem forall_mem_issues_iff {p : Issue → Prop} :
    (∀ i ∈ ({ architecture := a } : Validator).issues steps, p i) ↔
      (∀ i ∈ Rule.stepSequence steps, p i) ∧ (∀ i ∈ Rule.dependencyConsistency steps, p i) ∧
      (∀ i ∈ Rule.confidenceThresholds steps, p i) ∧ (∀ i ∈ Rule.technologyTransitions steps, p i) ∧
      (∀ i ∈ Rule.filePathValidity steps, p i) ∧ (∀ i ∈ Rule.businessLogicCompleteness steps, p i) ∧
      (∀ i ∈ Rule.circularDependencies steps, p i) ∧ (∀ i ∈ Rule.duplicateSteps steps, p i) ∧
      (∀ i ∈ a.issues steps, p i) := by
  simp [Validator.issues, Rule.standard, Rule.run, Rule.total, Rule.Outcome.report, or_imp, forall_and]

theorem forall_issues_ne_critical_iff :
    (∀ i ∈ ({ architecture := a } : Validator).issues steps, i.severity ≠ .critical) ↔
      steps ≠ [] ∧ ∀ s ∈ steps, ¬ s.confidence < Rule.criticalConfidence := by
  rw [forall_mem_issues_iff, Rule.forall_stepSequence_ne_critical, Rule.forall_confidenceThresholds_ne_critical]
  constructor
  · rintro ⟨hne, -, hconfidence, -⟩
    exact ⟨hne, hconfidence⟩
  · rintro ⟨hne, hconfidence⟩
    exact ⟨hne, fun i hi => (Rule.isMinor_of_mem_dependencyConsistency hi).1, hconfidence,
      fun i hi => (Rule.isMinor_of_mem_technologyTransitions hi).1,
      fun i hi => (Rule.isMinor_of_mem_filePathValidity hi).1,
      fun i hi => (Rule.isMinor_of_mem_businessLogicCompleteness hi).1,
      fun i hi => Rule.severity_ne_critical_of_mem_circularDependencies hi,
      fun i hi => (Rule.isMinor_of_mem_duplicateSteps hi).1,
      fun i hi => Architecture.severity_ne_critical_of_mem_issues hi⟩

theorem forall_issues_isMinor_iff :
    (∀ i ∈ ({ architecture := a } : Validator).issues steps, i.IsMinor) ↔
      (steps ≠ [] ∧ Rule.NumberedFrom 1 steps) ∧ (∀ s ∈ steps, Rule.minimumConfidence ≤ s.confidence) ∧
      Acyclic (Rule.DependsOn steps) ∧
      ∀ p ∈ a.identify (steps.map (·.technology)), ∀ layer ∈ p.layers, ∃ s ∈ steps,
        Text.containsInsensitive s.technology layer := by
  rw [forall_mem_issues_iff, Rule.forall_stepSequence_isMinor, Rule.forall_confidenceThresholds_isMinor,
    Rule.forall_circularDependencies_isMinor, Architecture.forall_issues_isMinor]
  constructor
  · rintro ⟨hsequence, -, hconfidence, -, -, -, hacyclic, -, hlayers⟩
    exact ⟨hsequence, hconfidence, hacyclic, hlayers⟩
  · rintro ⟨hsequence, hconfidence, hacyclic, hlayers⟩
    exact ⟨hsequence, fun i => Rule.isMinor_of_mem_dependencyConsistency, hconfidence,
      fun i => Rule.isMinor_of_mem_technologyTransitions, fun i => Rule.isMinor_of_mem_filePathValidity,
      fun i => Rule.isMinor_of_mem_businessLogicCompleteness, hacyclic, fun i => Rule.isMinor_of_mem_duplicateSteps,
      hlayers⟩

/-! ## Validity -/

theorem isValid_examine_iff : (({ architecture := a } : Validator).examine time t).isValid ↔
    t.steps ≠ [] ∧ ∀ s ∈ t.steps, ¬ s.confidence < Rule.criticalConfidence := by
  rw [← forall_issues_ne_critical_iff (a := a)]
  simp [examine, Issue.anyOf]

/-- With the standard rules and any architecture, a trace is valid exactly when it has a step and no step has a
confidence below 0.1. A confidence that is not a number is not below. The validation takes place unless the log refuses
one of its entries. -/
theorem validate_isValid_iff (a : Architecture) (sink : Log.Sink) (time : Instant) (t : Trace) :
    let v : Validator := { architecture := a }
    (∃ validation, v.validate sink time t = .ok validation ∧
      (validation.isValid ↔ t.steps ≠ [] ∧ ∀ s ∈ t.steps, ¬ s.confidence < 0.1)) ∨
    ∃ failure, v.validate sink time t = .error failure ∧ ∃ e ∈ v.entries t, sink.refusal e = some failure := by
  intro v
  rcases v.validate_cases sink time t with hok | herror
  · exact .inl ⟨_, hok, isValid_examine_iff⟩
  · exact .inr herror

/-! ## Recommendations -/

theorem mem_advice {text : Text} : text ∈ advice t issues ↔ (true, text) ∈ adviceTable t issues := by
  simp [advice]

theorem nothingToDo_notMem_advice : nothingToDo ∉ advice t issues := by
  have hother : ∀ row ∈ adviceTable t issues, row.2 ≠ nothingToDo := by simp [adviceTable, nothingToDo]
  intro h
  exact hother _ (mem_advice.mp h) rfl

theorem recommendations_of_advice (h : advice t issues = []) : recommendations t issues = [nothingToDo] := by
  simp [recommendations, h]

theorem nothingToDo_mem_recommendations : nothingToDo ∈ recommendations t issues ↔ advice t issues = [] := by
  constructor
  · intro h
    by_contra hne
    rw [recommendations, if_neg (by simpa using hne)] at h
    exact nothingToDo_notMem_advice h
  · intro h
    simp [recommendations_of_advice h]

theorem advice_eq_nil_iff : advice t issues = [] ↔ (∀ i ∈ issues, i.IsMinor) ∧ 3 ≤ t.steps.length ∧
    ¬ t.confidence < 0.7 ∧ ∃ s ∈ t.steps, s.technology = Text.ofString "Database" := by
  rw [Issue.forall_isMinor_iff, advice, List.map_eq_nil_iff, List.filter_eq_nil_iff]
  have hlong : ¬ t.steps.length < minimumSteps ↔ 3 ≤ t.steps.length := Nat.not_lt
  have hextracted : ¬ t.confidence < lowExtraction ↔ ¬ t.confidence < 0.7 := Iff.rfl
  simp [adviceTable, hlong, hextracted, reachesDatabase, and_assoc]

/-- Nothing has to be done about a trace. -/
structure Complete (a : Architecture) (t : Trace) : Prop where
  long : 3 ≤ t.steps.length
  extracted : ¬ t.confidence < 0.7
  database : ∃ s ∈ t.steps, s.technology = Text.ofString "Database"
  numbered : ∀ (k : Nat) (s : Step), t.steps[k]? = some s → s.order = 1 + k
  confident : ∀ s ∈ t.steps, 0.3 ≤ s.confidence
  acyclic : Acyclic (Rule.DependsOn t.steps)
  layered : ∀ p, a.identify (t.steps.map (·.technology)) = some p → ∀ layer ∈ p.layers, ∃ s ∈ t.steps,
    Text.containsInsensitive s.technology layer

theorem advice_issues_eq_nil_iff :
    advice t (({ architecture := a } : Validator).issues t.steps) = [] ↔ Complete a t := by
  rw [advice_eq_nil_iff, forall_issues_isMinor_iff]
  constructor
  · rintro ⟨⟨⟨-, hnumbered⟩, hconfident, hacyclic, hlayered⟩, hlong, hextracted, hdatabase⟩
    exact ⟨hlong, hextracted, hdatabase, hnumbered, hconfident, hacyclic, hlayered⟩
  · intro h
    have hne : t.steps ≠ [] := List.ne_nil_of_length_pos (Nat.lt_of_lt_of_le (by decide) h.long)
    exact ⟨⟨⟨hne, h.numbered⟩, h.confident, h.acyclic, h.layered⟩, h.long, h.extracted, h.database⟩

/-- With the standard rules and any architecture, the recommendation that there is nothing to do is given exactly when
the trace is complete. It is then the only one, and the trace is valid. The validation takes place unless the log
refuses one of its entries. -/
theorem validate_nothingToDo_iff (a : Architecture) (sink : Log.Sink) (time : Instant) (t : Trace) :
    let v : Validator := { architecture := a }
    (∃ validation, v.validate sink time t = .ok validation ∧
      (Text.ofString "Flow trace appears complete and accurate" ∈ validation.recommendations ↔ Complete a t) ∧
      (validation.recommendations = [Text.ofString "Flow trace appears complete and accurate"] ∧ validation.isValid ↔
        Complete a t)) ∨
    ∃ failure, v.validate sink time t = .error failure ∧ ∃ e ∈ v.entries t, sink.refusal e = some failure := by
  intro v
  rcases v.validate_cases sink time t with hok | herror
  · refine .inl ⟨_, hok, nothingToDo_mem_recommendations.trans advice_issues_eq_nil_iff, ?_, ?_⟩
    · rintro ⟨hrecommended, -⟩
      refine advice_issues_eq_nil_iff.mp (nothingToDo_mem_recommendations.mp ?_)
      exact (congrArg (nothingToDo ∈ ·) hrecommended).mpr (List.mem_singleton_self _)
    · intro hcomplete
      have hadvice := advice_issues_eq_nil_iff.mpr hcomplete
      have hminor := Issue.forall_isMinor_iff.mp (advice_eq_nil_iff.mp hadvice).1
      exact ⟨recommendations_of_advice hadvice, congrArg (!·) hminor.1⟩
  · exact .inr herror

example : (({} : Validator).examine 0 { id := "save", confidence := 0.9, steps :=
    [{ order := 1, technology := "JSP", component := "form", dependencies := ["action"] },
     { order := 2, technology := "Struts Action", component := "action", dependencies := ["service"] },
     { order := 3, technology := "Java", component := "service", dependencies := ["users"] },
     { order := 4, technology := "Database", component := "users" }] }).recommendations = [nothingToDo] := by
  decide +kernel

end Validator

end RuleFlow
