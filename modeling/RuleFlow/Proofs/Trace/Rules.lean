import Mathlib.Data.List.Forall2
import Mathlib.Data.List.Nodup
import RuleFlow.Proofs.Trace.Batch

/-!
# Added rules

A validator starts with the standard rules, and others are added behind them one by one, unless the request is refused.
After any requests each rule contributes its own issues to those of a trace, or one issue in their place when it fails
(`Rule.Contributes`), in the order of the rules and in front of the issues of the architecture.
-/

namespace RuleFlow

/-! ## What a rule contributes -/

namespace Rule

/-- The issues that the check finds, or the one that says how it failed. -/
inductive Contributes (steps : List Step) (r : Rule) : List Issue → Prop
  | found {check issues} : r.check = some check → check steps = .ok issues → Contributes steps r issues
  | failed {check failure} : r.check = some check → check steps = .error failure → Contributes steps r
      [{ kind := .incompleteTrace, severity := .high,
         description := "Validation rule '" ++ r.name ++ "' failed: " ++ failure.message }]

theorem contributes_report {r : Rule} (h : r.check.isSome) (steps : List Step) :
    r.Contributes steps (r.run steps).report := by
  obtain ⟨check, hcheck⟩ := Option.isSome_iff_exists.mp h
  cases hresult : check steps with
  | ok issues =>
      have hreport : (r.run steps).report = issues := by simp [run, Outcome.report, hcheck, hresult]
      exact hreport ▸ .found hcheck hresult
  | error failure =>
      have hreport : (r.run steps).report = [(r.run steps).failureIssue] := by
        simp [run, Outcome.report, hcheck, hresult]
      have herror : (r.run steps).error? = some failure.message := by simp [run, Outcome.error?, hcheck, hresult]
      rw [hreport, Outcome.failureIssue, herror]
      exact .failed hcheck hresult

theorem check_isSome_of_mem_standard : ∀ r ∈ standard, r.check.isSome := by
  simp [standard, total]

theorem nodup_names_standard : (standard.map (·.name)).Nodup := by
  decide

end Rule

namespace Validator

/-! ## Requests -/

/-- The validator that a request to add a rule leaves, and why the request was refused if it was. -/
def request (v : Validator) (rule : Rule) : Validator × Option Error :=
  match v.addRule rule with
  | .ok extended => (extended, none)
  | .error e => (v, some e)

/-- The validator that requests leave one after the other, refused ones among them. -/
def requestAll (v : Validator) (rules : List Rule) : Validator := rules.foldl (fun v rule => (v.request rule).1) v

/-- The rule has a check and a name, which no other rule has. -/
structure Admits (v : Validator) (rule : Rule) : Prop where
  named : ¬ Text.isBlank rule.name
  checked : rule.check.isSome
  new : rule.name ∉ v.rules.map (·.name)

variable {v : Validator} {rule : Rule}

theorem any_name_iff : v.rules.any (·.name == rule.name) ↔ rule.name ∈ v.rules.map (·.name) := by
  simp

theorem request_of_admits (h : v.Admits rule) : v.request rule = ({ v with rules := v.rules ++ [rule] }, none) := by
  obtain ⟨hnamed, hchecked, hnew⟩ := h
  have hcheck : ¬ rule.check.isNone := by simpa [Option.isSome_iff_ne_none] using hchecked
  rw [request, addRule, if_neg hnamed, if_neg hcheck, if_neg (any_name_iff.not.mpr hnew)]

theorem request_of_not_admits (h : ¬ v.Admits rule) : ∃ e, v.request rule = (v, some e) := by
  unfold request addRule
  by_cases hnamed : Text.isBlank rule.name
  · exact ⟨.blankName, by rw [if_pos hnamed]⟩
  by_cases hcheck : rule.check.isNone
  · exact ⟨.noCheck rule.name, by rw [if_neg hnamed, if_pos hcheck]⟩
  by_cases htaken : v.rules.any (·.name == rule.name)
  · exact ⟨.nameTaken rule.name, by rw [if_neg hnamed, if_neg hcheck, if_pos htaken]⟩
  · have hchecked : rule.check.isSome := by simpa [Option.isSome_iff_ne_none] using hcheck
    exact absurd ⟨hnamed, hchecked, any_name_iff.not.mp htaken⟩ h

theorem request_eq_none_iff : (v.request rule).2 = none ↔ v.Admits rule := by
  by_cases h : v.Admits rule
  · simp [request_of_admits h, h]
  · obtain ⟨e, hrefused⟩ := request_of_not_admits h
    simp [hrefused, h]

theorem request_refused {e : Error} (h : (v.request rule).2 = some e) : (v.request rule).1 = v := by
  have hno : ¬ v.Admits rule := fun hadmits => by simp [request_of_admits hadmits] at h
  obtain ⟨_, hrefused⟩ := request_of_not_admits hno
  rw [hrefused]

/-! ## After any requests -/

/-- The standard rules, then some of the requested ones. Each has a check and a name of its own. -/
structure Extends (v : Validator) (a : Architecture) (requests : List Rule) : Prop where
  architecture : v.architecture = a
  rules : ∃ added, v.rules = Rule.standard ++ added ∧ added.Sublist requests
  nodup : (v.rules.map (·.name)).Nodup
  checked : ∀ r ∈ v.rules, r.check.isSome

variable {a : Architecture} {requests : List Rule}

theorem Extends.initial : ({ architecture := a } : Validator).Extends a [] where
  architecture := rfl
  rules := ⟨[], by simp⟩
  nodup := Rule.nodup_names_standard
  checked := Rule.check_isSome_of_mem_standard

theorem Extends.request (h : v.Extends a requests) (rule : Rule) :
    (v.request rule).1.Extends a (requests ++ [rule]) := by
  obtain ⟨added, hrules, hsublist⟩ := h.rules
  by_cases hadmits : v.Admits rule
  · rw [request_of_admits hadmits]
    refine ⟨h.architecture, ⟨added ++ [rule], by simp [hrules], hsublist.append_right _⟩, ?_, ?_⟩
    · have hnames := List.nodup_append.mpr ⟨h.nodup, List.nodup_singleton rule.name, ?_⟩
      · simpa using hnames
      · rintro name hname _ hlast rfl
        exact hadmits.new (List.mem_singleton.mp hlast ▸ hname)
    · intro r hr
      rcases List.mem_append.mp hr with hr | hr
      · exact h.checked r hr
      · exact List.mem_singleton.mp hr ▸ hadmits.checked
  · obtain ⟨e, hrefused⟩ := request_of_not_admits hadmits
    rw [hrefused]
    exact ⟨h.architecture, ⟨added, hrules, hsublist.trans (List.sublist_append_left _ _)⟩, h.nodup, h.checked⟩

theorem extends_requestAll (a : Architecture) (requests : List Rule) :
    (({ architecture := a } : Validator).requestAll requests).Extends a requests := by
  induction requests using List.reverseRecOn with
  | nil => exact .initial
  | append_singleton requests rule ih =>
      rw [requestAll, List.foldl_append]
      exact ih.request rule

/-! ## Issues -/

theorem issues_eq (v : Validator) (steps : List Step) :
    v.issues steps = (v.rules.map fun r => (r.run steps).report).flatten ++ v.architecture.issues steps := by
  rw [issues, List.flatMap_def]

theorem Extends.contributes (h : v.Extends a requests) (steps : List Step) :
    List.Forall₂ (Rule.Contributes steps) v.rules (v.rules.map fun r => (r.run steps).report) := by
  rw [List.forall₂_map_right_iff, List.forall₂_same]
  exact fun r hr => Rule.contributes_report (h.checked r hr) steps

/-- One more rule contributes in front of the issues of the architecture. -/
theorem issues_request (h : v.Admits rule) (steps : List Step) :
    (v.request rule).1.issues steps =
      (v.rules.map fun r => (r.run steps).report).flatten ++ (rule.run steps).report ++
        v.architecture.issues steps := by
  rw [request_of_admits h, issues_eq]
  simp

/-- More issues leave no trace valid that was not. -/
theorem isValid_of_subset {v w : Validator} {time : Instant} {t : Trace} (h : v.issues t.steps ⊆ w.issues t.steps)
    (hvalid : (w.examine time t).isValid) : (v.examine time t).isValid := by
  simp only [examine, Issue.anyOf, Bool.not_eq_true', List.any_eq_false, decide_eq_true_eq] at hvalid ⊢
  exact fun i hi => hvalid i (h hi)

/-- After any requests the rules are the standard ones and then requested ones, all with different names. A validation
takes place unless the log refuses one of its entries, and its issues are the contributions of the rules in order and
then the issues of the architecture. A further request is refused exactly when the rule lacks a check or a name of its
own, and then changes nothing. Otherwise the contribution of the rule is all that the request adds to the issues, and no
trace becomes valid by it. -/
theorem issues_requestAll (a : Architecture) (requests : List Rule) :
    let v := ({ architecture := a } : Validator).requestAll requests
    (∃ added, v.rules = Rule.standard ++ added ∧ added.Sublist requests) ∧
      (v.rules.map (·.name)).Nodup ∧
      (∀ (sink : Log.Sink) (time : Instant) (t : Trace), v.validate sink time t = .ok (v.examine time t) ∨
        ∃ failure, v.validate sink time t = .error failure ∧ ∃ e ∈ v.entries t, sink.refusal e = some failure) ∧
      (∀ (time : Instant) (t : Trace), ∃ parts, List.Forall₂ (Rule.Contributes t.steps) v.rules parts ∧
        (v.examine time t).issues = parts.flatten ++ a.issues t.steps) ∧
      ∀ rule, ((v.request rule).2 = none ↔ v.Admits rule) ∧
        (∀ e, (v.request rule).2 = some e → (v.request rule).1.rules = v.rules) ∧
        (v.Admits rule → ∀ (time : Instant) (t : Trace), ∃ before part, Rule.Contributes t.steps rule part ∧
          (v.examine time t).issues = before ++ a.issues t.steps ∧
          ((v.request rule).1.examine time t).issues = before ++ part ++ a.issues t.steps ∧
          (((v.request rule).1.examine time t).isValid → (v.examine time t).isValid)) := by
  intro v
  have hv := extends_requestAll a requests
  have hissues : ∀ steps, v.issues steps = (v.rules.map fun r => (r.run steps).report).flatten ++ a.issues steps := by
    intro steps
    rw [issues_eq, hv.architecture]
  refine ⟨hv.rules, hv.nodup, v.validate_cases, fun time t => ⟨_, hv.contributes t.steps, hissues t.steps⟩,
    fun rule => ?_⟩
  refine ⟨request_eq_none_iff, fun e he => by rw [request_refused he], fun hadmits time t => ?_⟩
  have hmore := issues_request hadmits t.steps
  rw [hv.architecture] at hmore
  refine ⟨_, _, Rule.contributes_report hadmits.checked t.steps, hissues t.steps, hmore, isValid_of_subset ?_⟩
  rw [hissues, hmore]
  exact List.append_subset.mpr ⟨by simp, by simp⟩

end Validator

end RuleFlow
