import RuleFlow.Proofs.Number.Value
import RuleFlow.Trace.Score

/-!
# Scores in exact arithmetic

Among the rational numbers, where nothing is rounded, a score is one less what is taken off, or what is added up and
scaled, brought to the nearest number of the unit interval. So the scores only go down with what is found wrong or left
out (`scores_decrease`).
-/

namespace RuleFlow

namespace Score

variable {x y impact : ℚ} {impacts : List ℚ} {steps steps' : List Step} {issues issues' : List Issue}

/-! ## Numbers -/

theorem atMostOne_eq (x : ℚ) : atMostOne x = min 1 x := by
  have hone : (1.0 : ℚ) = 1 := by norm_num
  rw [atMostOne, hone, min_comm, min_def_lt]

theorem clamp_eq (x : ℚ) : clamp x = max 0 (min 1 x) := by
  have hzero : (0.0 : ℚ) = 0 := by norm_num
  rw [clamp, atMostOne_eq, hzero, max_def_lt]

theorem clamp_mono (h : x ≤ y) : clamp x ≤ clamp y := by
  rw [clamp_eq, clamp_eq]
  exact max_le_max le_rfl (min_le_min le_rfl h)

theorem zero_le_clamp (x : ℚ) : 0 ≤ clamp x := by
  rw [clamp_eq]
  exact le_max_left 0 _

theorem clamp_of_nonpos (h : x ≤ 0) : clamp x = 0 := by
  rw [clamp_eq, max_eq_left ((min_le_right 1 x).trans h)]

theorem foldl_sub_eq (xs : List ℚ) (start : ℚ) : xs.foldl (· - ·) start = start - xs.sum := by
  induction xs generalizing start with
  | nil => simp
  | cons x xs ih => rw [List.foldl_cons, ih, List.sum_cons, sub_sub]

theorem foldl_add_eq (xs : List ℚ) (start : ℚ) : xs.foldl (· + ·) start = start + xs.sum := by
  induction xs generalizing start with
  | nil => simp
  | cons x xs ih => rw [List.foldl_cons, ih, List.sum_cons, add_assoc]

/-! ## Completeness -/

theorem zero_le_of_mem_penalties : ∀ x ∈ (penalties steps issues : List ℚ), 0 ≤ x :=
  forall_mem_penalties (by norm_num) (by norm_num) (by norm_num) (by norm_num) (by norm_num)

/-- Where more is taken off, less is left. -/
theorem completeness_le_of_sublist (hsteps : steps = [] ↔ steps' = [])
    (h : (penalties steps issues : List ℚ).Sublist (penalties steps' issues')) :
    (completeness steps' issues' : ℚ) ≤ completeness steps issues := by
  have hsum : (penalties steps issues : List ℚ).sum ≤ (penalties steps' issues').sum :=
    h.sum_le_sum zero_le_of_mem_penalties
  unfold completeness
  simp only [List.isEmpty_iff, hsteps, foldl_sub_eq]
  split
  · exact le_rfl
  · exact clamp_mono (sub_le_sub_left hsum _)

theorem completeness_insert_le (steps : List Step) (before : List Issue) (i : Issue) (after : List Issue) :
    (completeness steps (before ++ i :: after) : ℚ) ≤ completeness steps (before ++ after) := by
  have hissues : (before ++ after).Sublist (before ++ i :: after) := (List.sublist_cons_self i after).append_left before
  exact completeness_le_of_sublist Iff.rfl ((hissues.flatMap _).append_left _)

/-- One more thing is left out of a step. -/
inductive LeavesOut (s : Step) : Step → Prop
  | file {blank : Text} : Text.isBlank blank → LeavesOut s { s with file := blank }
  | businessLogic {blank : Text} : Text.isBlank blank → LeavesOut s { s with businessLogic := blank }
  | dependencies : LeavesOut s { s with dependencies := [] }

theorem LeavesOut.stepPenalties_sublist {s s' : Step} (h : LeavesOut s s') :
    (stepPenalties s : List ℚ).Sublist (stepPenalties s') := by
  cases h with
  | file hblank =>
      refine .append (.append ?_ (.refl _)) (.refl _)
      simp only [hblank, if_true]
      split <;> simp
  | businessLogic hblank =>
      refine .append (.append (.refl _) ?_) (.refl _)
      simp only [hblank, if_true]
      split <;> simp
  | dependencies =>
      refine .append (.refl _) ?_
      simp only [List.isEmpty_nil, if_true]
      split <;> simp

theorem LeavesOut.completeness_le {s s' : Step} (h : LeavesOut s s') (before after : List Step) (issues : List Issue) :
    (completeness (before ++ s' :: after) issues : ℚ) ≤ completeness (before ++ s :: after) issues := by
  refine completeness_le_of_sublist (by simp) (List.Sublist.append_right ?_ _)
  rw [List.flatMap_append, List.flatMap_append, List.flatMap_cons, List.flatMap_cons]
  exact .append_left (.append_right h.stepPenalties_sublist _) _

/-! ## Confidence -/

theorem count_eq (n : Nat) : (count n : ℚ) = n := by
  have hcount : (count n : ℚ) = Rat.ofScientific n false 0 := rfl
  rw [hcount, Rat.ofScientific_false_def, pow_zero, mul_one]

theorem lengthFactor_eq (n : Nat) : (lengthFactor n : ℚ) = 4 / 5 + 1 / 5 * min 1 (n / 5 : ℚ) := by
  rw [lengthFactor, atMostOne_eq, count_eq]
  norm_num

theorem zero_le_lengthFactor (n : Nat) : (0 : ℚ) ≤ lengthFactor n := by
  rw [lengthFactor_eq]
  positivity

theorem lengthFactor_le_one (n : Nat) : (lengthFactor n : ℚ) ≤ 1 := by
  have hmost : min 1 (n / 5 : ℚ) ≤ 1 := min_le_left _ _
  rw [lengthFactor_eq]
  linarith

theorem confidence_eq (extraction : ℚ) (impacts : List ℚ) (n : Nat) :
    confidence extraction impacts n = clamp ((extraction + impacts.sum) * lengthFactor n) := by
  rw [confidence, foldl_add_eq]

theorem confidence_insert_le (himpact : impact ≤ 0) (extraction : ℚ) (before after : List ℚ) (n : Nat) :
    confidence extraction (before ++ impact :: after) n ≤ confidence extraction (before ++ after) n := by
  have hsum : extraction + (before ++ impact :: after).sum ≤ extraction + (before ++ after).sum := by
    simp only [List.sum_append, List.sum_cons]
    linarith
  rw [confidence_eq, confidence_eq]
  exact clamp_mono (mul_le_mul_of_nonneg_right hsum (zero_le_lengthFactor n))

/-- A sum below zero is scaled towards zero, but not past it. -/
theorem confidence_le_clamp (himpacts : ∀ x ∈ impacts, x ≤ 0) (extraction : ℚ) (n : Nat) :
    confidence extraction impacts n ≤ clamp extraction := by
  have hsum : extraction + impacts.sum ≤ extraction := by
    have hnonpos : impacts.sum ≤ 0 := by simpa using List.sum_le_card_nsmul impacts 0 himpacts
    linarith
  rw [confidence_eq]
  rcases le_total (extraction + impacts.sum) 0 with hneg | hpos
  · rw [clamp_of_nonpos (mul_nonpos_of_nonpos_of_nonneg hneg (zero_le_lengthFactor n))]
    exact zero_le_clamp extraction
  · exact clamp_mono ((mul_le_of_le_one_right hpos (lengthFactor_le_one n)).trans hsum)

/-! ## Traces -/

/-- The number that a finite double stands for. -/
def valueOf (x : Float) : ℚ := Number.value x.toModel.unpack

/-- The confidence in a trace with its issues, all their doubles taken for the numbers that they stand for. -/
def confidenceIn (t : Trace) (issues : List Issue) : ℚ :=
  confidence (valueOf t.confidence) (issues.map (valueOf ·.impact)) t.steps.length

theorem valueOf_nonpos {x : Float} (hfinite : x.isFinite) (h : x ≤ 0) : valueOf x ≤ 0 :=
  (Number.le_iff_value hfinite rfl).mp h

/-- One more issue, wherever it comes, does not raise the completeness, and nor does a step that leaves out its file,
its business logic or its dependencies. An impact that is not positive does not raise the confidence, and where none is
positive, the confidence is at most that of the extraction, brought into the unit interval. This holds of any rational
numbers, and so of the finite doubles of a trace. -/
theorem scores_decrease :
    (∀ (steps : List Step) (before : List Issue) (i : Issue) (after : List Issue),
      (completeness steps (before ++ i :: after) : ℚ) ≤ completeness steps (before ++ after)) ∧
    (∀ (before : List Step) (s s' : Step) (after : List Step) (issues : List Issue), LeavesOut s s' →
      (completeness (before ++ s' :: after) issues : ℚ) ≤ completeness (before ++ s :: after) issues) ∧
    (∀ (extraction : ℚ) (before : List ℚ) (impact : ℚ) (after : List ℚ) (steps : Nat), impact ≤ 0 →
      confidence extraction (before ++ impact :: after) steps ≤ confidence extraction (before ++ after) steps) ∧
    (∀ (extraction : ℚ) (impacts : List ℚ) (steps : Nat), (∀ impact ∈ impacts, impact ≤ 0) →
      confidence extraction impacts steps ≤ max 0 (min 1 extraction)) ∧
    (∀ (t : Trace) (before : List Issue) (i : Issue) (after : List Issue), i.impact.isFinite → i.impact ≤ 0 →
      confidenceIn t (before ++ i :: after) ≤ confidenceIn t (before ++ after)) ∧
    ∀ (t : Trace) (issues : List Issue), (∀ i ∈ issues, i.impact.isFinite ∧ i.impact ≤ 0) →
      confidenceIn t issues ≤ max 0 (min 1 (valueOf t.confidence)) := by
  refine ⟨completeness_insert_le, fun before s s' after issues h => h.completeness_le before after issues,
    fun extraction before impact after steps h => confidence_insert_le h extraction before after steps,
    fun extraction impacts steps h => ?rationals, fun t before i after hfinite h => ?issue, fun t issues h => ?doubles⟩
  case rationals =>
    rw [← clamp_eq]
    exact confidence_le_clamp h extraction steps
  case issue =>
    rw [confidenceIn, confidenceIn, List.map_append, List.map_cons, List.map_append]
    exact confidence_insert_le (valueOf_nonpos hfinite h) _ _ _ _
  case doubles =>
    rw [← clamp_eq]
    refine confidence_le_clamp (List.forall_mem_map.mpr fun i hi => ?_) _ _
    exact valueOf_nonpos (h i hi).1 (h i hi).2

/-- A step loses its description, and impacts outweigh the confidence of the extraction, so that the sum is scaled up
towards zero. -/
theorem scores_decrease_below_zero :
    let described : Step := { businessLogic := "checks the password", dependencies := ["session"] }
    let undescribed : Step := { businessLogic := " \t", dependencies := ["session"] }
    let missing : Issue := { kind := .missingLink, severity := .high, description := "Missing layer", impact := -0.2 }
    LeavesOut described undescribed ∧ (-2 : ℚ) ≤ 0 ∧ (∀ impact ∈ [(-2 : ℚ), -1 / 2], impact ≤ 0) ∧
      missing.impact.isFinite ∧
      missing.impact ≤ 0 ∧
      (completeness [{}, undescribed] [missing] : ℚ) ≤ completeness [{}, described] [missing] ∧
      confidence (3 / 2 : ℚ) [1 / 4, -2, -1 / 2] 2 ≤ confidence (3 / 2) [1 / 4, -1 / 2] 2 ∧
      confidence (3 / 2 : ℚ) [-2, -1 / 2] 2 ≤ max 0 (min 1 (3 / 2)) ∧
      confidenceIn { id := "login", confidence := 0.1 } [missing] ≤
        confidenceIn { id := "login", confidence := 0.1 } [] ∧
      confidenceIn { id := "login", confidence := 0.1 } [missing] ≤ max 0 (min 1 (valueOf 0.1)) := by
  intro described undescribed missing
  have hleaves : LeavesOut described undescribed := .businessLogic (by decide)
  have himpact : (-2 : ℚ) ≤ 0 := by norm_num
  have himpacts : ∀ impact ∈ [(-2 : ℚ), -1 / 2], impact ≤ 0 := by norm_num
  have hfinite : missing.impact.isFinite := by decide +kernel
  have hmissing : missing.impact ≤ 0 := by decide +kernel
  obtain ⟨-, hstep, hinsert, hbound, hissue, hdoubles⟩ := scores_decrease
  exact ⟨hleaves, himpact, himpacts, hfinite, hmissing, hstep [{}] _ _ [] [missing] hleaves,
    hinsert (3 / 2) [1 / 4] (-2) [-1 / 2] 2 himpact, hbound (3 / 2) _ 2 himpacts,
      hissue _ [] missing [] hfinite hmissing,
    hdoubles _ [missing] (by simp [hfinite, hmissing])⟩

end Score

end RuleFlow
