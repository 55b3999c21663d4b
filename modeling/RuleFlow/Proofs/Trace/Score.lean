import RuleFlow.Proofs.Number.Natural
import RuleFlow.Proofs.Trace.Verdict

/-!
# Scores are finite

The scores of a trace lie in the unit interval, whatever doubles its steps and its extraction have, and the issues of
the standard rules and of any architecture have finite impacts. So every number of a validation is finite, and so are
the means over any number of them.
-/

namespace RuleFlow

/-! ## The unit interval -/

/-- A number from zero to one. -/
def InUnit (x : Float) : Prop := 0 ≤ x ∧ x ≤ 1

instance : DecidablePred InUnit := fun x => inferInstanceAs (Decidable (0 ≤ x ∧ x ≤ 1))

variable {x y : Float}

theorem InUnit.isFinite (h : InUnit x) : x.isFinite := by
  have hunpack : x.isFinite = x.toModel.unpack.isFinite := rfl
  rcases Number.unpack_cases_of_unit h.1 h.2 with ⟨s, hx⟩ | ⟨m, e, hm, hx, -⟩
  · rw [hunpack, hx]
    rfl
  · rw [hunpack, hx]
    rfl

namespace Score

/-- What cannot be compared with one counts as one, and what cannot be compared with zero as zero. -/
theorem clamp_cases (x : Float) : clamp x = 0.0 ∨ clamp x = 1.0 ∨ 0.0 < clamp x ∧ clamp x < 1.0 := by
  unfold clamp
  split
  · rename_i hpos
    unfold atMostOne at hpos ⊢
    split at hpos
    · rename_i hlt
      rw [if_pos hlt]
      exact .inr (.inr ⟨hpos, hlt⟩)
    · rename_i hge
      rw [if_neg hge]
      exact .inr (.inl rfl)
  · exact .inl rfl

theorem inUnit_of_cases (h : x = 0.0 ∨ x = 1.0 ∨ 0.0 < x ∧ x < 1.0) : InUnit x := by
  rcases h with rfl | rfl | ⟨hpos, hlt⟩
  · decide +kernel
  · decide +kernel
  · exact ⟨Number.le_of_lt hpos, Number.le_of_lt hlt⟩

theorem clamp_inUnit (x : Float) : InUnit (clamp x) := inUnit_of_cases (clamp_cases x)

theorem completeness_inUnit (steps : List Step) (issues : List Issue) : InUnit (completeness steps issues) := by
  unfold completeness
  split
  · decide +kernel
  · exact clamp_inUnit _

end Score

/-! ## Means -/

namespace Validation.Statistics

theorem isFinite_foldl_add (xs : List Float) (h : ∀ x ∈ xs, InUnit x) (start : Float) (hstart : start.isFinite) :
    (xs.foldl (· + ·) start).isFinite := by
  induction xs generalizing start with
  | nil => exact hstart
  | cons x xs ih =>
      obtain ⟨hzero, hone⟩ := h x (by simp)
      exact ih (fun y hy => h y (by simp [hy])) (start + x) (Number.isFinite_add hstart hzero hone)

theorem isFinite_mean {xs : List Float} (h : ∀ x ∈ xs, InUnit x) (hne : xs ≠ []) : (mean xs).isFinite :=
  Number.isFinite_div (isFinite_foldl_add xs h 0 rfl) (Number.one_le_toFloat (List.length_pos_of_ne_nil hne))

end Validation.Statistics

/-! ## Impacts -/

/-- The impacts that issues have. -/
def Issue.impacts : List Float := [0, -0.1, -0.2, -1.0]

open Issue (impacts)

theorem Validator.impact_of_mem_issues {a : Architecture} {steps : List Step} :
    ∀ i ∈ ({ architecture := a } : Validator).issues steps, i.impact ∈ impacts := by
  refine forall_mem_issues_iff.mpr ⟨?_, ?_, ?_, ?_, ?_, ?_, ?_, ?_, ?_⟩ <;> intro i hi
  · obtain rfl | ⟨n, found, rfl⟩ := Rule.exists_of_mem_stepSequence hi
    · simp [impacts, Rule.noStepsIssue]
    · simp [impacts, Rule.gapIssue]
  · obtain ⟨s, d, rfl⟩ := Rule.exists_of_mem_dependencyConsistency hi
    simp [impacts, Rule.brokenDependencyIssue]
  · obtain ⟨s, -, -, rfl⟩ := Rule.mem_confidenceThresholds.mp hi
    simp [impacts, Rule.lowConfidenceIssue]
  · obtain ⟨s, next, rfl⟩ := Rule.exists_of_mem_technologyTransitions hi
    simp [impacts, Rule.transitionIssue]
  · obtain ⟨s, rfl | rfl⟩ := Rule.exists_of_mem_filePathValidity hi
    · simp [impacts, Rule.missingFileIssue]
    · simp [impacts, Rule.suspiciousFileIssue]
  · obtain ⟨s, rfl | rfl⟩ := Rule.exists_of_mem_businessLogicCompleteness hi
    · simp [impacts, Rule.missingLogicIssue]
    · simp [impacts, Rule.briefLogicIssue]
  · obtain ⟨cycle, rfl⟩ := Rule.exists_of_mem_circularDependencies hi
    simp [impacts, Rule.cycleIssue]
  · obtain ⟨first, s, rfl⟩ := Rule.exists_of_mem_duplicatesAfter hi
    simp [impacts, Rule.duplicateIssue]
  · obtain rfl | ⟨layer, rfl⟩ := Architecture.exists_of_mem_issues hi
    · simp [impacts, Architecture.noPatternIssue]
    · simp [impacts, Architecture.missingLayerIssue]

/-! ## Validations -/

/-- Every number of the validation is finite. -/
structure Validation.Finite (v : Validation) : Prop where
  confidence : InUnit v.confidence
  completeness : InUnit v.completeness
  impacts : ∀ i ∈ v.issues, i.impact.isFinite

theorem Issue.isFinite_of_mem_impacts (h : x ∈ impacts) : x.isFinite := by
  have hall : ∀ x ∈ impacts, x.isFinite := by decide +kernel
  exact hall x h

theorem Validator.finite_validateOrReport {a : Architecture} {sink : Log.Sink} {time : Instant} {t : Trace}
    {v : Validation}
    (h : ({ architecture := a } : Validator).validateOrReport sink time t = .ok v) : v.Finite := by
  rcases validateOrReport_cases h with ⟨-, rfl⟩ | ⟨cause, -, rfl⟩
  · exact ⟨Score.clamp_inUnit _, Score.completeness_inUnit _ _, fun i hi => Issue.isFinite_of_mem_impacts
      (impact_of_mem_issues i hi)⟩
  · have hzero : InUnit 0 := by decide +kernel
    exact ⟨hzero, hzero, by simp [Validation.failed]; rfl⟩

theorem Validations.values_eq (vs : Validations) : vs.values = vs.toList.map (·.2) := by
  have hvalues : vs.values = vs.foldr (fun _ v rest => v :: rest) [] := rfl
  rw [hvalues, Std.ExtTreeMap.foldr_eq_foldr_toList, ← List.map_eq_foldr]

/-- The means over validations with finite numbers are finite, however many there are. -/
theorem Validation.Statistics.isFinite_ofValidations {vs : Validations}
    (h : ∀ (id : Text) (v : Validation), vs[id]? = some v → v.Finite) :
    (ofValidations vs).averageConfidence.isFinite ∧ (ofValidations vs).averageCompleteness.isFinite := by
  have hall : ∀ v ∈ vs.values, v.Finite := by
    rw [Validations.values_eq, List.forall_mem_map]
    intro ⟨id, v⟩ hmem
    exact h id v (Std.ExtTreeMap.mem_toList_iff_getElem?_eq_some.mp hmem)
  unfold ofValidations
  split
  · exact ⟨rfl, rfl⟩
  · rename_i hne
    have hvalues : vs.values ≠ [] := by
      rw [Validations.values_eq, ne_eq, List.map_eq_nil_iff, ← List.isEmpty_iff, Std.ExtTreeMap.isEmpty_toList]
      exact hne
    exact ⟨isFinite_mean (List.forall_mem_map.mpr fun v hv => (hall v hv).confidence) (by simpa using hvalues),
      isFinite_mean (List.forall_mem_map.mpr fun v hv => (hall v hv).completeness) (by simpa using hvalues)⟩

end RuleFlow
