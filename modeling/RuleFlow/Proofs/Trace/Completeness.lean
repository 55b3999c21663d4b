import RuleFlow.Proofs.Number.Arithmetic
import RuleFlow.Proofs.Trace.Verdict

/-!
# Full completeness

Whatever is taken off one is large enough to show in doubles, and nothing is ever added. So a trace is fully complete
only if nothing is taken off: no step leaves out anything, and the standard rules and the architecture raise no issue
that costs something (`Issue.IsFree`). Which traces these are is told from the trace alone (`Thorough`).
-/

namespace RuleFlow

/-! ## Taking off -/

namespace Score

/-- All that is ever taken off. -/
def costs : List Float := [0.1, 0.05, 0.02, 0.2, 0.15]

theorem costs_show : ∀ x ∈ costs, x.isFinite ∧ 1 / 64 ≤ Number.value x.toModel.unpack := by
  decide +kernel

theorem foldl_sub_lt_one {xs : List Float} (h : ∀ x ∈ xs, x ∈ costs) (hne : xs ≠ []) {start : Float}
    (hstart : start ≤ 1) :
    xs.foldl (· - ·) start < 1 := by
  induction xs generalizing start with
  | nil => exact absurd rfl hne
  | cons x xs ih =>
      obtain ⟨hfinite, hlow⟩ := costs_show x (h x (by simp))
      have hlt : start - x < 1 := Number.sub_lt_one hstart hfinite hlow
      rw [List.foldl_cons]
      cases xs with
      | nil => exact hlt
      | cons y xs => exact ih (fun z hz => h z (by simp [hz])) (by simp) (Number.le_of_lt hlt)

theorem clamp_lt_one {x : Float} (h : x < 1) : clamp x < 1 := by
  have hone : (1.0 : Float) = 1 := by decide +kernel
  unfold clamp atMostOne
  rw [hone, if_pos h]
  split
  · exact h
  · decide +kernel

theorem mem_costs_of_mem_penalties {steps : List Step} {issues : List Issue} :
    ∀ x ∈ penalties steps issues, x ∈ costs :=
  forall_mem_penalties (by simp [costs]) (by simp [costs]) (by simp [costs]) (by simp [costs]) (by simp [costs])

/-- Nothing is taken off a full completeness. -/
theorem completeness_eq_one_iff {steps : List Step} {issues : List Issue} :
    completeness steps issues = (1.0 : Float) ↔ steps ≠ [] ∧ (penalties steps issues : List Float) = [] := by
  have hirrefl {x : Float} (h : x < 1) : x ≠ 1.0 := by
    rintro rfl
    exact absurd h (by decide +kernel)
  unfold completeness
  by_cases hsteps : steps = []
  · rw [if_pos (by simp [hsteps])]
    exact iff_of_false (hirrefl (by decide +kernel)) fun h => h.1 hsteps
  · rw [if_neg (by simpa using hsteps)]
    by_cases hpenalties : (penalties steps issues : List Float) = []
    · rw [hpenalties]
      exact iff_of_true (by decide +kernel) ⟨hsteps, rfl⟩
    · have hstart : (1.0 : Float) ≤ 1 := by decide +kernel
      have hlt := clamp_lt_one (foldl_sub_lt_one mem_costs_of_mem_penalties hpenalties hstart)
      exact iff_of_false (hirrefl hlt) fun h => hpenalties h.2

theorem stepPenalties_eq_nil_iff {s : Step} : (stepPenalties s : List Float) = [] ↔
    ¬ Text.isBlank s.file ∧ ¬ Text.isBlank s.businessLogic ∧ s.dependencies ≠ [] := by
  simp [stepPenalties]

end Score

/-! ## Issues without cost -/

/-- Nothing is taken off for the issue. -/
def Issue.IsFree (i : Issue) : Prop := (Score.issuePenalties i.kind : List Float) = []

theorem Issue.isFree_iff {i : Issue} :
    i.IsFree ↔ i.kind ≠ .missingLink ∧ i.kind ≠ .incompleteTrace ∧ i.kind ≠ .technologyGap := by
  cases hkind : i.kind <;> simp [IsFree, Score.issuePenalties, hkind]

namespace Rule

variable {steps : List Step}

theorem forall_stepSequence_isFree : (∀ i ∈ stepSequence steps, i.IsFree) ↔ steps ≠ [] ∧ NumberedFrom 1 steps := by
  rw [← stepSequence_eq_nil_iff]
  refine Issue.forall_iff_eq_nil fun i hi => ?_
  obtain rfl | ⟨n, found, rfl⟩ := exists_of_mem_stepSequence hi
  · simp [noStepsIssue, Issue.isFree_iff]
  · simp [gapIssue, Issue.isFree_iff]

theorem mem_zip_tail_iff {s next : Step} :
    (s, next) ∈ steps.zip steps.tail ↔ ∃ k : Nat, steps[k]? = some s ∧ steps[k + 1]? = some next := by
  simp [List.mem_iff_getElem?, List.getElem?_zip_eq_some]

theorem forall_technologyTransitions_isFree : (∀ i ∈ technologyTransitions steps, i.IsFree) ↔
    ∀ (k : Nat) (s next : Step), steps[k]? = some s → steps[k + 1]? = some next →
      isUsualTransition s.technology next.technology := by
  have hcost : ∀ i ∈ technologyTransitions steps, ¬ i.IsFree := by
    intro i hi
    obtain ⟨s, next, rfl⟩ := exists_of_mem_technologyTransitions hi
    simp [transitionIssue, Issue.isFree_iff]
  rw [Issue.forall_iff_eq_nil hcost, technologyTransitions, List.map_eq_nil_iff, List.filter_eq_nil_iff]
  simp only [Prod.forall, mem_zip_tail_iff, Bool.not_eq_true', Bool.not_eq_false]
  constructor
  · exact fun h k s next hs hnext => h s next ⟨k, hs, hnext⟩
  · rintro h s next ⟨k, hs, hnext⟩
    exact h k s next hs hnext

theorem forall_filePathValidity_isFree : (∀ i ∈ filePathValidity steps, i.IsFree) ↔
    ∀ s ∈ steps, ¬ Text.isBlank s.file ∧ isReasonableFile s.file := by
  have hcost : ∀ i ∈ filePathValidity steps, ¬ i.IsFree := by
    intro i hi
    obtain ⟨s, rfl | rfl⟩ := exists_of_mem_filePathValidity hi
    · simp [missingFileIssue, Issue.isFree_iff]
    · simp [suspiciousFileIssue, Issue.isFree_iff]
  rw [Issue.forall_iff_eq_nil hcost, filePathValidity, List.filterMap_eq_nil_iff]
  refine forall₂_congr fun s _ => ?_
  unfold fileIssue?
  split_ifs <;> simp_all

/-- A blank description is shorter than any that is long enough. -/
theorem forall_businessLogicCompleteness_isFree : (∀ i ∈ businessLogicCompleteness steps, i.IsFree) ↔
    ∀ s ∈ steps, 10 ≤ (Text.trim s.businessLogic).length := by
  have hcost : ∀ i ∈ businessLogicCompleteness steps, ¬ i.IsFree := by
    intro i hi
    obtain ⟨s, rfl | rfl⟩ := exists_of_mem_businessLogicCompleteness hi
    · simp [missingLogicIssue, Issue.isFree_iff]
    · simp [briefLogicIssue, Issue.isFree_iff]
  rw [Issue.forall_iff_eq_nil hcost, businessLogicCompleteness, List.filterMap_eq_nil_iff]
  refine forall₂_congr fun s _ => ?_
  unfold logicIssue? minimumLogicLength
  split_ifs with hblank hbrief
  · simp [Text.trim_eq_nil_iff.mpr hblank]
  · exact iff_of_false (by simp) (by omega)
  · exact iff_of_true rfl (by omega)

end Rule

/-- A flow should follow a pattern, and have all its layers. -/
theorem Architecture.forall_issues_isFree {a : Architecture} {steps : List Step} : (∀ i ∈ a.issues steps, i.IsFree) ↔
    ∃ p, a.identify (steps.map (·.technology)) = some p ∧
      ∀ layer ∈ p.layers, ∃ s ∈ steps, Text.containsInsensitive s.technology layer := by
  cases hp : a.identify (steps.map (·.technology)) with
  | none => simp [issues, hp, Issue.IsFree, noPatternIssue, Score.issuePenalties]
  | some p =>
      have hcost : ∀ i ∈ (p.missing (steps.map (·.technology))).map missingLayerIssue, ¬ i.IsFree := by
        intro i hi
        obtain ⟨layer, -, rfl⟩ := List.mem_map.mp hi
        simp [missingLayerIssue, Issue.isFree_iff]
      rw [issues_of_identify hp, Issue.forall_iff_eq_nil hcost, List.map_eq_nil_iff, missing_eq_nil_iff]
      simp only [Option.some.injEq, exists_eq_left']

namespace Validator

variable {a : Architecture} {steps : List Step} {t : Trace}

/-- A trace with nothing left out and nothing out of place. -/
structure Thorough (a : Architecture) (t : Trace) : Prop where
  nonempty : t.steps ≠ []
  numbered : ∀ (k : Nat) (s : Step), t.steps[k]? = some s → s.order = 1 + k
  placed : ∀ s ∈ t.steps, ¬ Text.isBlank s.file ∧ Rule.isReasonableFile s.file
  described : ∀ s ∈ t.steps, 10 ≤ (Text.trim s.businessLogic).length
  connected : ∀ s ∈ t.steps, s.dependencies ≠ []
  usual : ∀ (k : Nat) (s next : Step), t.steps[k]? = some s → t.steps[k + 1]? = some next →
    Rule.isUsualTransition s.technology next.technology
  layered : ∃ p, a.identify (t.steps.map (·.technology)) = some p ∧
    ∀ layer ∈ p.layers, ∃ s ∈ t.steps, Text.containsInsensitive s.technology layer

theorem forall_issues_isFree_iff :
    (∀ i ∈ ({ architecture := a } : Validator).issues steps, i.IsFree) ↔
      (steps ≠ [] ∧ Rule.NumberedFrom 1 steps) ∧
      (∀ (k : Nat) (s next : Step), steps[k]? = some s → steps[k + 1]? = some next →
        Rule.isUsualTransition s.technology next.technology) ∧
      (∀ s ∈ steps, ¬ Text.isBlank s.file ∧ Rule.isReasonableFile s.file) ∧
      (∀ s ∈ steps, 10 ≤ (Text.trim s.businessLogic).length) ∧
      ∃ p, a.identify (steps.map (·.technology)) = some p ∧
        ∀ layer ∈ p.layers, ∃ s ∈ steps, Text.containsInsensitive s.technology layer := by
  rw [forall_mem_issues_iff, Rule.forall_stepSequence_isFree, Rule.forall_technologyTransitions_isFree,
    Rule.forall_filePathValidity_isFree, Rule.forall_businessLogicCompleteness_isFree,
      Architecture.forall_issues_isFree]
  constructor
  · rintro ⟨hsequence, -, -, husual, hfiles, hlogic, -, -, hlayers⟩
    exact ⟨hsequence, husual, hfiles, hlogic, hlayers⟩
  · rintro ⟨hsequence, husual, hfiles, hlogic, hlayers⟩
    -- broken dependencies, low confidence, cycles and duplicates cost nothing
    refine ⟨hsequence, ?_, ?_, husual, hfiles, hlogic, ?_, ?_, hlayers⟩ <;> intro i hi
    · obtain ⟨s, d, rfl⟩ := Rule.exists_of_mem_dependencyConsistency hi
      rfl
    · obtain ⟨s, -, -, rfl⟩ := Rule.mem_confidenceThresholds.mp hi
      rfl
    · obtain ⟨cycle, rfl⟩ := Rule.exists_of_mem_circularDependencies hi
      rfl
    · obtain ⟨first, s, rfl⟩ := Rule.exists_of_mem_duplicatesAfter hi
      rfl

theorem penalties_eq_nil_iff {issues : List Issue} : (Score.penalties steps issues : List Float) = [] ↔
    (∀ s ∈ steps, ¬ Text.isBlank s.file ∧ ¬ Text.isBlank s.businessLogic ∧ s.dependencies ≠ []) ∧
      ∀ i ∈ issues, i.IsFree := by
  simp only [Score.penalties, List.append_eq_nil_iff, List.flatMap_eq_nil_iff, Score.stepPenalties_eq_nil_iff,
    Issue.IsFree]

theorem completeness_examine_iff {time : Instant} :
    (({ architecture := a } : Validator).examine time t).completeness = 1.0 ↔ Thorough a t := by
  have hdescribed {s : Step} (h : 10 ≤ (Text.trim s.businessLogic).length) : ¬ Text.isBlank s.businessLogic := by
    intro hblank
    simp [Text.trim_eq_nil_iff.mpr hblank] at h
  show Score.completeness t.steps (({ architecture := a } : Validator).issues t.steps) = 1.0 ↔ _
  rw [Score.completeness_eq_one_iff, penalties_eq_nil_iff, forall_issues_isFree_iff]
  constructor
  · rintro ⟨hne, hsteps, ⟨-, hnumbered⟩, husual, hfiles, hlogic, hlayers⟩
    exact ⟨hne, hnumbered, hfiles, hlogic, fun s hs => (hsteps s hs).2.2, husual, hlayers⟩
  · intro h
    exact ⟨h.nonempty, fun s hs => ⟨(h.placed s hs).1, hdescribed (h.described s hs), h.connected s hs⟩,
      ⟨h.nonempty, h.numbered⟩, h.usual, h.placed, h.described, h.layered⟩

/-- With the standard rules and any architecture, a trace is fully complete exactly when it is thorough. The validation
takes place unless the log refuses one of its entries. -/
theorem validate_completeness_iff (a : Architecture) (sink : Log.Sink) (time : Instant) (t : Trace) :
    let v : Validator := { architecture := a }
    (∃ validation, v.validate sink time t = .ok validation ∧ (validation.completeness = 1.0 ↔ Thorough a t)) ∨
    ∃ failure, v.validate sink time t = .error failure ∧ ∃ e ∈ v.entries t, sink.refusal e = some failure := by
  intro v
  rcases v.validate_cases sink time t with hok | herror
  · exact .inl ⟨_, hok, completeness_examine_iff⟩
  · exact .inr herror

example : (({} : Validator).examine 0 { id := "save", steps :=
    [{ order := 1, technology := "JSP", file := "form.jsp", dependencies := ["action"],
       businessLogic := "shows the form" },
     { order := 2, technology := "Struts Action", file := "Action.java", dependencies := ["form"],
       businessLogic := "takes the form" },
     { order := 3, technology := "Java", file := "Service.java", dependencies := ["action"],
       businessLogic := "checks the user" },
     { order := 4, technology := "Database", file := "users.sql", dependencies := ["service"],
       businessLogic := "keeps the user" }]
    }).completeness = 1.0 := by
  decide +kernel

end Validator

end RuleFlow
