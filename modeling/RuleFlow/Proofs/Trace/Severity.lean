import RuleFlow.Proofs.Number.Order
import RuleFlow.Proofs.Trace.Cycle
import RuleFlow.Trace.Validator

/-!
# How severe issues are

Of the standard rules three raise issues that are high or critical: about the numbering of steps, the confidence in a
step and circular dependencies. Besides them only missing layers matter that much, all other issues are minor
(`Issue.IsMinor`).
-/

namespace RuleFlow

/-! ## Minor issues -/

/-- Neither critical nor high. -/
def Issue.IsMinor (i : Issue) : Prop := i.severity ≠ .critical ∧ i.severity ≠ .high

theorem Issue.isMinor_of_medium {i : Issue} (h : i.severity = .medium) : i.IsMinor := by
  simp [IsMinor, h]

theorem Issue.isMinor_of_low {i : Issue} (h : i.severity = .low) : i.IsMinor := by
  simp [IsMinor, h]

theorem Issue.forall_isMinor_iff {issues : List Issue} :
    (∀ i ∈ issues, i.IsMinor) ↔ Issue.anyOf .critical issues = false ∧ Issue.anyOf .high issues = false := by
  simp [anyOf, IsMinor, forall_and]

/-- Where no issue has a property, all have it only if there is none. -/
theorem Issue.forall_iff_eq_nil {P : Issue → Prop} {issues : List Issue} (h : ∀ i ∈ issues, ¬ P i) :
    (∀ i ∈ issues, P i) ↔ issues = [] := by
  rw [List.eq_nil_iff_forall_not_mem]
  exact forall₂_congr fun i hi => iff_false_intro (h i hi)

namespace Rule

variable {steps : List Step} {i : Issue}

/-! ## What the rules raise -/

theorem exists_of_mem_gaps {expected : Int} (h : i ∈ gaps expected steps) : ∃ n found, i = gapIssue n found := by
  induction steps generalizing expected with
  | nil => cases h
  | cons s rest ih =>
      rw [gaps, List.mem_append] at h
      rcases h with h | h
      · split at h
        · cases h
        · exact ⟨_, _, List.mem_singleton.mp h⟩
      · exact ih h

theorem exists_of_mem_stepSequence (h : i ∈ stepSequence steps) :
    i = noStepsIssue ∨ ∃ n found, i = gapIssue n found := by
  unfold stepSequence at h
  split at h
  · exact .inl (List.mem_singleton.mp h)
  · exact .inr (exists_of_mem_gaps h)

theorem exists_of_mem_dependencyConsistency (h : i ∈ dependencyConsistency steps) :
    ∃ s d, i = brokenDependencyIssue s d := by
  obtain ⟨s, -, hs⟩ := List.mem_flatMap.mp h
  obtain ⟨d, -, rfl⟩ := List.mem_map.mp hs
  exact ⟨s, d, rfl⟩

theorem mem_confidenceThresholds :
    i ∈ confidenceThresholds steps ↔ ∃ s ∈ steps, ¬ minimumConfidence ≤ s.confidence ∧ lowConfidenceIssue s = i := by
  simp [confidenceThresholds, and_assoc]

theorem exists_of_mem_technologyTransitions (h : i ∈ technologyTransitions steps) :
    ∃ s next, i = transitionIssue s next := by
  obtain ⟨⟨s, next⟩, -, rfl⟩ := List.mem_map.mp h
  exact ⟨s, next, rfl⟩

theorem exists_of_mem_filePathValidity (h : i ∈ filePathValidity steps) :
    ∃ s, i = missingFileIssue s ∨ i = suspiciousFileIssue s := by
  obtain ⟨s, -, hs⟩ := List.mem_filterMap.mp h
  unfold fileIssue? at hs
  split_ifs at hs <;> cases hs
  · exact ⟨s, .inl rfl⟩
  · exact ⟨s, .inr rfl⟩

theorem exists_of_mem_businessLogicCompleteness (h : i ∈ businessLogicCompleteness steps) :
    ∃ s, i = missingLogicIssue s ∨ i = briefLogicIssue s := by
  obtain ⟨s, -, hs⟩ := List.mem_filterMap.mp h
  unfold logicIssue? at hs
  split_ifs at hs <;> cases hs
  · exact ⟨s, .inl rfl⟩
  · exact ⟨s, .inr rfl⟩

theorem exists_of_mem_circularDependencies (h : i ∈ circularDependencies steps) :
    ∃ cycle, i = cycleIssue steps cycle := by
  obtain ⟨cycle, -, rfl⟩ := List.mem_map.mp h
  exact ⟨cycle, rfl⟩

theorem exists_of_mem_duplicatesAfter {earlier : List Step} (h : i ∈ duplicatesAfter earlier steps) :
    ∃ first s, i = duplicateIssue first s := by
  induction steps generalizing earlier with
  | nil => cases h
  | cons s rest ih =>
      rw [duplicatesAfter, List.mem_append] at h
      rcases h with h | h
      · split at h
        · exact ⟨_, _, List.mem_singleton.mp h⟩
        · cases h
      · exact ih h

/-! ## Minor rules -/

theorem isMinor_of_mem_dependencyConsistency (h : i ∈ dependencyConsistency steps) : i.IsMinor := by
  obtain ⟨s, d, rfl⟩ := exists_of_mem_dependencyConsistency h
  exact Issue.isMinor_of_medium rfl

theorem isMinor_of_mem_technologyTransitions (h : i ∈ technologyTransitions steps) : i.IsMinor := by
  obtain ⟨s, next, rfl⟩ := exists_of_mem_technologyTransitions h
  exact Issue.isMinor_of_medium rfl

theorem isMinor_of_mem_filePathValidity (h : i ∈ filePathValidity steps) : i.IsMinor := by
  obtain ⟨s, rfl | rfl⟩ := exists_of_mem_filePathValidity h
  · exact Issue.isMinor_of_medium rfl
  · exact Issue.isMinor_of_low rfl

theorem isMinor_of_mem_businessLogicCompleteness (h : i ∈ businessLogicCompleteness steps) : i.IsMinor := by
  obtain ⟨s, rfl | rfl⟩ := exists_of_mem_businessLogicCompleteness h <;> exact Issue.isMinor_of_low rfl

theorem isMinor_of_mem_duplicateSteps (h : i ∈ duplicateSteps steps) : i.IsMinor := by
  obtain ⟨first, s, rfl⟩ := exists_of_mem_duplicatesAfter h
  exact Issue.isMinor_of_medium rfl

/-! ## Numbering -/

/-- The steps are numbered `start`, `start + 1` and so on in the order of the list. -/
def NumberedFrom (start : Int) (steps : List Step) : Prop :=
  ∀ (k : Nat) (s : Step), steps[k]? = some s → s.order = start + k

theorem numberedFrom_nil (start : Int) : NumberedFrom start [] := by
  simp [NumberedFrom]

theorem numberedFrom_cons {start : Int} {s : Step} {rest : List Step} :
    NumberedFrom start (s :: rest) ↔ s.order = start ∧ NumberedFrom (start + 1) rest := by
  constructor
  · intro h
    refine ⟨by simpa using h 0 s rfl, fun k t ht => ?_⟩
    rw [h (k + 1) t (by simpa using ht)]
    push_cast
    omega
  · rintro ⟨hs, hrest⟩ k t ht
    cases k with
    | zero =>
        cases ht
        simpa using hs
    | succ k =>
        rw [hrest k t (by simpa using ht)]
        push_cast
        omega

theorem gaps_eq_nil_iff {expected : Int} : gaps expected steps = [] ↔ NumberedFrom expected steps := by
  induction steps generalizing expected with
  | nil => simp [gaps, numberedFrom_nil]
  | cons s rest ih =>
      rw [gaps, List.append_eq_nil_iff, ih, numberedFrom_cons]
      by_cases hs : s.order = expected
      · simp [hs]
      · simp [hs]

theorem forall_stepSequence_ne_critical : (∀ i ∈ stepSequence steps, i.severity ≠ .critical) ↔ steps ≠ [] := by
  cases steps with
  | nil => simp [stepSequence, noStepsIssue]
  | cons s rest =>
      simp only [stepSequence, List.isEmpty_cons, Bool.false_eq_true, ↓reduceIte, ne_eq, reduceCtorEq,
        not_false_eq_true,
        iff_true]
      intro i hi
      obtain ⟨n, found, rfl⟩ := exists_of_mem_gaps hi
      simp [gapIssue]

theorem stepSequence_eq_nil_iff : stepSequence steps = [] ↔ steps ≠ [] ∧ NumberedFrom 1 steps := by
  cases steps with
  | nil => simp [stepSequence]
  | cons s rest =>
      rw [stepSequence, if_neg (by simp), gaps_eq_nil_iff]
      exact (and_iff_right (by simp)).symm

theorem forall_stepSequence_isMinor :
    (∀ i ∈ stepSequence steps, i.IsMinor) ↔ steps ≠ [] ∧ NumberedFrom 1 steps := by
  rw [← stepSequence_eq_nil_iff]
  refine Issue.forall_iff_eq_nil fun i hi => ?_
  obtain rfl | ⟨n, found, rfl⟩ := exists_of_mem_stepSequence hi
  · simp [noStepsIssue, Issue.IsMinor]
  · simp [gapIssue, Issue.IsMinor]

/-! ## Confidence -/

theorem severity_lowConfidenceIssue (s : Step) :
    (lowConfidenceIssue s).severity = if s.confidence < criticalConfidence then .critical else .high := rfl

/-- A confidence below the critical one is below the least one, too. -/
theorem not_minimum_le_of_lt_critical {x : Float} (h : x < criticalConfidence) : ¬ minimumConfidence ≤ x :=
  Number.not_le_of_lt (Number.lt_trans h (by decide))

theorem forall_confidenceThresholds_ne_critical :
    (∀ i ∈ confidenceThresholds steps, i.severity ≠ .critical) ↔ ∀ s ∈ steps, ¬ s.confidence < criticalConfidence := by
  constructor
  · intro h s hs hlow
    apply h _ (mem_confidenceThresholds.mpr ⟨s, hs, not_minimum_le_of_lt_critical hlow, rfl⟩)
    rw [severity_lowConfidenceIssue, if_pos hlow]
  · intro h i hi
    obtain ⟨s, hs, -, rfl⟩ := mem_confidenceThresholds.mp hi
    rw [severity_lowConfidenceIssue, if_neg (h s hs)]
    decide

theorem forall_confidenceThresholds_isMinor :
    (∀ i ∈ confidenceThresholds steps, i.IsMinor) ↔ ∀ s ∈ steps, minimumConfidence ≤ s.confidence := by
  constructor
  · intro h s hs
    by_contra hlow
    obtain ⟨hcritical, hhigh⟩ := h _ (mem_confidenceThresholds.mpr ⟨s, hs, hlow, rfl⟩)
    rw [severity_lowConfidenceIssue] at hcritical hhigh
    split at hhigh <;> simp_all
  · intro h i hi
    obtain ⟨s, hs, hlow, -⟩ := mem_confidenceThresholds.mp hi
    exact absurd (h s hs) hlow

/-! ## Circular dependencies -/

theorem severity_ne_critical_of_mem_circularDependencies (h : i ∈ circularDependencies steps) :
    i.severity ≠ .critical := by
  obtain ⟨cycle, rfl⟩ := exists_of_mem_circularDependencies h
  simp [cycleIssue]

theorem circularDependencies_eq_nil_iff : circularDependencies steps = [] ↔ Acyclic (DependsOn steps) := by
  obtain ⟨answer, hsearch, -⟩ := search_firstCycle steps
  have hissues := circularDependencies_of_search hsearch
  cases answer with
  | ok visited => exact iff_of_true hissues (acyclic_of_search hsearch)
  | error cycle => exact iff_of_false (by simp [hissues]) (isCycle_of_search hsearch).not_acyclic

theorem forall_circularDependencies_isMinor :
    (∀ i ∈ circularDependencies steps, i.IsMinor) ↔ Acyclic (DependsOn steps) := by
  rw [← circularDependencies_eq_nil_iff]
  refine Issue.forall_iff_eq_nil fun i hi => ?_
  obtain ⟨cycle, rfl⟩ := exists_of_mem_circularDependencies hi
  simp [cycleIssue, Issue.IsMinor]

end Rule

/-! ## Layers -/

namespace Architecture

variable {a : Architecture} {steps : List Step} {i : Issue}

theorem exists_of_mem_issues (h : i ∈ a.issues steps) :
    i = noPatternIssue steps ∨ ∃ layer, i = missingLayerIssue layer := by
  unfold issues at h
  dsimp only at h
  split at h
  · exact .inl (List.mem_singleton.mp h)
  · obtain ⟨layer, -, rfl⟩ := List.mem_map.mp h
    exact .inr ⟨layer, rfl⟩

theorem severity_ne_critical_of_mem_issues (h : i ∈ a.issues steps) : i.severity ≠ .critical := by
  obtain rfl | ⟨layer, rfl⟩ := exists_of_mem_issues h
  · simp [noPatternIssue]
  · simp [missingLayerIssue]

theorem mem_missing {p : Pattern} {layer : Text} :
    layer ∈ p.missing (steps.map (·.technology)) ↔
      layer ∈ p.layers ∧ ¬ ∃ s ∈ steps, Text.containsInsensitive s.technology layer := by
  simp [Pattern.missing, Pattern.hasLayer]

theorem missing_eq_nil_iff {p : Pattern} : p.missing (steps.map (·.technology)) = [] ↔
    ∀ layer ∈ p.layers, ∃ s ∈ steps, Text.containsInsensitive s.technology layer := by
  rw [List.eq_nil_iff_forall_not_mem]
  simp only [mem_missing, not_and, not_not]

theorem issues_of_identify {p : Pattern} (h : a.identify (steps.map (·.technology)) = some p) :
    a.issues steps = (p.missing (steps.map (·.technology))).map missingLayerIssue := by
  simp only [issues, h]

/-- A flow that follows a pattern should have all its layers. -/
theorem forall_issues_isMinor : (∀ i ∈ a.issues steps, i.IsMinor) ↔
    ∀ p ∈ a.identify (steps.map (·.technology)), ∀ layer ∈ p.layers, ∃ s ∈ steps,
      Text.containsInsensitive s.technology layer := by
  cases hp : a.identify (steps.map (·.technology)) with
  | none => simp [issues, hp, Issue.IsMinor, noPatternIssue]
  | some p =>
      have hhigh : ∀ i ∈ (p.missing (steps.map (·.technology))).map missingLayerIssue, ¬ i.IsMinor := by
        intro i hi
        obtain ⟨layer, -, rfl⟩ := List.mem_map.mp hi
        simp [Issue.IsMinor, missingLayerIssue]
      rw [issues_of_identify hp, Issue.forall_iff_eq_nil hhigh, List.map_eq_nil_iff, missing_eq_nil_iff]
      simp only [Option.mem_some_iff, forall_eq']

end Architecture

end RuleFlow
