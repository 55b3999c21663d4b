import RuleFlow.Proofs.Trace.Score
import RuleFlow.Proofs.Trace.Turns

/-!
# Coherent validations

Whatever rules a validator has, what they find and how they fail, and whatever becomes of the log: each validation that
a batch leaves is coherent. Its verdict agrees with its issues, its scores are shares and it recommends something
(`Validation.Coherent`).
-/

namespace RuleFlow

/-! ## Shares -/

/-- Zero, one or strictly between them, so neither negative nor without a place among the numbers. -/
structure Score.IsShare (x : Float) : Prop where
  cases : x = 0.0 ∨ x = 1.0 ∨ 0.0 < x ∧ x < 1.0
  isNumber : x.isNaN = false
  nonneg : ¬ x < 0.0

namespace Score

theorem isShare_of_cases {x : Float} (h : x = 0.0 ∨ x = 1.0 ∨ 0.0 < x ∧ x < 1.0) : IsShare x := by
  obtain ⟨hzero, hone⟩ := inUnit_of_cases h
  exact ⟨h, Number.isNaN_of_le hone, fun hneg => Number.not_le_of_lt hneg hzero⟩

theorem isShare_zero : IsShare 0.0 := isShare_of_cases (.inl rfl)

theorem isShare_clamp (x : Float) : IsShare (clamp x) := isShare_of_cases (clamp_cases x)

theorem isShare_completeness (steps : List Step) (issues : List Issue) : IsShare (completeness steps issues) := by
  unfold completeness
  split
  · exact isShare_zero
  · exact isShare_clamp _

theorem completeness_of_nil {steps : List Step} (h : steps = []) (issues : List Issue) :
    completeness steps issues = (0.0 : Float) := by
  rw [h]
  rfl

end Score

/-! ## Verdicts -/

namespace Validation

/-- The verdict agrees with the issues, the scores are shares, and something is recommended. -/
structure Coherent (v : Validation) : Prop where
  isValid_iff : v.isValid ↔ ∀ i ∈ v.issues, i.severity ≠ .critical
  isValid_iff_hasCriticalIssues : v.isValid ↔ v.hasCriticalIssues = false
  isValid_iff_criticalIssues : v.isValid ↔ v.criticalIssues = []
  confidence : Score.IsShare v.confidence
  completeness : Score.IsShare v.completeness
  recommended : v.recommendations ≠ []

variable {v : Validation}

theorem hasCriticalIssues_eq_false_iff : v.hasCriticalIssues = false ↔ ∀ i ∈ v.issues, i.severity ≠ .critical := by
  simp [hasCriticalIssues, Issue.anyOf]

theorem criticalIssues_eq_nil_iff : v.criticalIssues = [] ↔ ∀ i ∈ v.issues, i.severity ≠ .critical := by
  simp [criticalIssues, List.filter_eq_nil_iff]

/-- It is enough that the verdict agrees with the issues in one way. -/
theorem coherent_of_isValid_iff (hvalid : v.isValid ↔ v.hasCriticalIssues = false)
    (hconfidence : Score.IsShare v.confidence) (hcompleteness : Score.IsShare v.completeness)
    (hrecommended : v.recommendations ≠ []) : v.Coherent where
  isValid_iff := hvalid.trans hasCriticalIssues_eq_false_iff
  isValid_iff_hasCriticalIssues := hvalid
  isValid_iff_criticalIssues := hvalid.trans (hasCriticalIssues_eq_false_iff.trans criticalIssues_eq_nil_iff.symm)
  confidence := hconfidence
  completeness := hcompleteness
  recommended := hrecommended

theorem coherent_failed (reason : Text) (time : Instant) : (failed reason time).Coherent := by
  refine coherent_of_isValid_iff ?_ Score.isShare_zero Score.isShare_zero (List.cons_ne_nil _ _)
  simp [failed, hasCriticalIssues, Issue.anyOf]

end Validation

namespace Validator

theorem recommendations_ne_nil (t : Trace) (issues : List Issue) : recommendations t issues ≠ [] := by
  unfold recommendations
  split
  · exact List.cons_ne_nil _ _
  · rename_i hadvice
    simpa using hadvice

theorem coherent_examine (v : Validator) (time : Instant) (t : Trace) : (v.examine time t).Coherent := by
  refine Validation.coherent_of_isValid_iff ?_ (Score.isShare_clamp _) (Score.isShare_completeness _ _)
    (recommendations_ne_nil _ _)
  simp [examine, Validation.hasCriticalIssues]

/-- Any validator leaves only coherent validations of a batch, and that of a trace without steps has no completeness.
Only a log that refuses the report of a failure leaves a batch without validations. -/
theorem coherent_validateTurns (v : Validator) (turns : List Turn) :
    (∀ sink time ts, v.validateAll sink time ts = v.validateTurns (ts.map (⟨·, sink, time⟩))) ∧
      ((∃ vs, v.validateTurns turns = .ok vs ∧ ∀ (id : Text) (validation : Validation), vs[id]? = some validation →
        validation.Coherent ∧
          ∀ x, Turn.LastIn turns x → x.trace.id = id → x.trace.steps = [] → validation.completeness = 0.0) ∨
      ∃ failure, v.validateTurns turns = .error failure ∧ ∃ x ∈ turns, ¬ v.Reports x) := by
  refine ⟨v.validateAll_eq_validateTurns, ?_⟩
  cases h : v.validateTurns turns with
  | error failure => exact .inr ⟨failure, rfl, exists_not_reports_of_error h⟩
  | ok vs =>
      refine .inl ⟨vs, rfl, fun id validation hentry => ⟨?_, ?_⟩⟩
      · obtain ⟨x, -, -, hturn⟩ := (getElem?_validateTurns h).mp hentry
        rcases validateOrReport_cases hturn with ⟨-, rfl⟩ | ⟨cause, -, rfl⟩
        · exact v.coherent_examine x.time x.trace
        · exact Validation.coherent_failed _ _
      · rintro x hx rfl hsteps
        obtain ⟨found, hturn⟩ := exists_of_collect h hx.mem
        have hfound := (getElem?_validateTurns h).mpr ⟨x, hx, rfl, hturn⟩
        rw [hentry] at hfound
        cases hfound
        rcases validateOrReport_cases hturn with ⟨-, rfl⟩ | ⟨cause, -, rfl⟩
        · exact Score.completeness_of_nil hsteps (v.issues x.trace.steps)
        · rfl

end Validator

end RuleFlow
