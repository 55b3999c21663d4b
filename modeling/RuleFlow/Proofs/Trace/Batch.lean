import RuleFlow.Command.Basic
import RuleFlow.Proofs.Keyed
import RuleFlow.Trace.Validator

/-!
# Batches of traces

A batch keeps one validation for each id, that of the last trace with the id (`Trace.LastIn`). The exit code of a
batch speaks for these traces: a trace that is not valid stays without effect when a later one has its id.
-/

namespace RuleFlow

/-! ## The last trace with an id -/

/-- The trace is in the list, and none behind it has its id. -/
def Trace.LastIn (ts : List Trace) (t : Trace) : Prop :=
  ∃ before after, ts = before ++ t :: after ∧ ∀ u ∈ after, u.id ≠ t.id

namespace Trace

variable {ts : List Trace} {t u : Trace}

theorem lastIn_iff_lastBy : t.LastIn ts ↔ LastBy (·.id) ts t := Iff.rfl

theorem LastIn.mem (h : t.LastIn ts) : t ∈ ts := (lastIn_iff_lastBy.mp h).mem

theorem lastIn_append_singleton : t.LastIn (ts ++ [u]) ↔ t = u ∨ t.LastIn ts ∧ u.id ≠ t.id := by
  simp only [lastIn_iff_lastBy, lastBy_append_singleton]

theorem exists_lastIn (h : t ∈ ts) : ∃ u : Trace, u.LastIn ts ∧ u.id = t.id :=
  exists_lastBy Trace.id h

end Trace

theorem Validations.allValid_iff (vs : Validations) :
    vs.allValid ↔ ∀ (id : Text) (validation : Validation), vs[id]? = some validation → validation.isValid := by
  simp only [allValid, List.all_eq_true, Prod.forall, Std.ExtTreeMap.mem_toList_iff_getElem?_eq_some]

/-! ## One trace -/

theorem Log.Sink.deliver_cases (sink : Log.Sink) (entries : List Log.Entry) :
    sink.deliver entries = .ok () ∨
      ∃ failure, sink.deliver entries = .error failure ∧ ∃ e ∈ entries, sink.refusal e = some failure := by
  unfold deliver
  cases hrefused : entries.findSome? sink.refusal with
  | none => exact .inl rfl
  | some failure => exact .inr ⟨failure, rfl, List.exists_of_findSome?_eq_some hrefused⟩

namespace Validator

/-- A validation takes place unless the log refuses one of its entries. -/
theorem validate_cases (v : Validator) (sink : Log.Sink) (time : Instant) (t : Trace) :
    v.validate sink time t = .ok (v.examine time t) ∨
      ∃ failure, v.validate sink time t = .error failure ∧ ∃ e ∈ v.entries t, sink.refusal e = some failure := by
  rcases sink.deliver_cases (v.entries t) with hok | ⟨failure, herror, hrefused⟩
  · exact .inl (by rw [validate, hok]; rfl)
  · exact .inr ⟨failure, by rw [validate, herror]; rfl, hrefused⟩

section

variable {v : Validator} {sink : Log.Sink} {time : Instant} {t : Trace} {validation : Validation}

theorem validateOrReport_of_ok (h : v.validate sink time t = .ok validation) :
    v.validateOrReport sink time t = .ok validation := by
  rw [validateOrReport, h]

theorem validateOrReport_of_error {cause : Failure} (h : v.validate sink time t = .error cause) :
    v.validateOrReport sink time t = match sink.refusal (failureEntry t cause) with
      | some refused => .error refused
      | none => .ok (.failed cause.message time) := by
  rw [validateOrReport, h]
  cases hrefused : sink.refusal (failureEntry t cause) with
  | some refused => simp [Log.Sink.deliver, hrefused, bind, Except.bind]
  | none => simp [Log.Sink.deliver, hrefused, bind, Except.bind, pure, Except.pure]

/-- What comes of a trace is what the validator finds about it, or that it could not be validated. -/
theorem validateOrReport_cases (h : v.validateOrReport sink time t = .ok validation) :
    (v.validate sink time t = .ok validation ∧ validation = v.examine time t) ∨
      ∃ cause, v.validate sink time t = .error cause ∧ validation = .failed cause.message time := by
  rcases v.validate_cases sink time t with hok | ⟨cause, herror, -⟩
  · rw [validateOrReport_of_ok hok] at h
    cases h
    exact .inl ⟨hok, rfl⟩
  · rw [validateOrReport_of_error herror] at h
    split at h
    · cases h
    · cases h
      exact .inr ⟨cause, herror, rfl⟩

end

/-! ## Entries of a batch -/

variable (v : Validator) (sink : Log.Sink) (time : Instant)

/-- The trace is validated and found valid. -/
def Accepts (t : Trace) : Prop := ∃ validation, v.validate sink time t = .ok validation ∧ validation.isValid

/-- The report of a trace that could not be validated never makes the trace valid. -/
theorem isValid_of_validateOrReport {t : Trace} {validation : Validation}
    (h : v.validateOrReport sink time t = .ok validation) : validation.isValid ↔ v.Accepts sink time t := by
  rcases validateOrReport_cases h with ⟨hok, -⟩ | ⟨cause, herror, rfl⟩
  · refine ⟨fun hvalid => ⟨validation, hok, hvalid⟩, ?_⟩
    rintro ⟨_, hagain, hvalid⟩
    rw [hok] at hagain
    cases hagain
    exact hvalid
  · refine iff_of_false (by simp [Validation.failed]) ?_
    rintro ⟨_, hok, -⟩
    rw [herror] at hok
    cases hok

/-- Only a log that refuses the report of a failure stops a batch. -/
theorem validateOrReport_error {t : Trace} {failure : Failure}
    (h : v.validateOrReport sink time t = .error failure) :
    ∃ cause, v.validate sink time t = .error cause ∧ sink.refusal (failureEntry t cause) = some failure := by
  cases hv : v.validate sink time t with
  | ok found =>
      rw [validateOrReport_of_ok hv] at h
      cases h
  | error cause =>
      rw [validateOrReport_of_error hv] at h
      refine ⟨cause, rfl, ?_⟩
      split at h
      · rename_i hrefused
        cases h
        exact hrefused
      · cases h

theorem validateAll_eq_collect (ts : List Trace) :
    v.validateAll sink time ts = collect (·.id) (v.validateOrReport sink time) ts := rfl

/-- The entry under an id is what came of the last trace with the id. -/
theorem getElem?_validateAll {ts : List Trace} {vs : Validations} (h : v.validateAll sink time ts = .ok vs)
    (id : Text) (validation : Validation) :
    vs[id]? = some validation ↔
      ∃ t, t.LastIn ts ∧ t.id = id ∧ v.validateOrReport sink time t = .ok validation :=
  getElem?_collect h id validation

/-- A log that takes every entry stops no batch. -/
theorem exists_validateAll_open (ts : List Trace) : ∃ vs, v.validateAll .open time ts = .ok vs := by
  simp only [validateAll_eq_collect, exists_collect_iff]
  intro t _
  cases ht : v.validateOrReport .open time t with
  | ok validation => exact ⟨validation, rfl⟩
  | error failure =>
      obtain ⟨_, _, hrefused⟩ := v.validateOrReport_error .open time ht
      simp [Log.Sink.open] at hrefused

/-- A batch that is stopped holds a trace whose failure could not be reported. -/
theorem validateAll_error {ts : List Trace} {failure : Failure} (h : v.validateAll sink time ts = .error failure) :
    ∃ t ∈ ts, ∃ cause, v.validate sink time t = .error cause ∧
      sink.refusal (failureEntry t cause) = some failure := by
  obtain ⟨t, ht, herror⟩ := collect_error h
  exact ⟨t, ht, v.validateOrReport_error sink time herror⟩

/-- The last trace with an id leaves an entry, if the batch is not stopped. -/
theorem exists_validation_of_lastIn {ts : List Trace} {vs : Validations} (h : v.validateAll sink time ts = .ok vs)
    {t : Trace} (ht : t.LastIn ts) : ∃ validation, v.validateOrReport sink time t = .ok validation :=
  exists_of_collect h ht.mem

theorem exists_getElem?_validateAll {ts : List Trace} {vs : Validations} (h : v.validateAll sink time ts = .ok vs)
    {t : Trace} (ht : t ∈ ts) :
    ∃ u validation, v.validateOrReport sink time u = .ok validation ∧ vs[t.id]? = some validation := by
  obtain ⟨u, hu, hid⟩ := Trace.exists_lastIn ht
  obtain ⟨validation, hreport⟩ := v.exists_validation_of_lastIn sink time h hu
  exact ⟨u, validation, hreport, (v.getElem?_validateAll sink time h t.id validation).mpr ⟨u, hu, hid, hreport⟩⟩

/-! ## The exit code -/

theorem allValid_validateAll {ts : List Trace} {vs : Validations} (h : v.validateAll sink time ts = .ok vs) :
    vs.allValid ↔ ∀ t, t.LastIn ts → v.Accepts sink time t := by
  rw [Validations.allValid_iff]
  constructor
  · intro hall t ht
    obtain ⟨validation, hr⟩ := v.exists_validation_of_lastIn sink time h ht
    have hentry := (v.getElem?_validateAll sink time h t.id validation).mpr ⟨t, ht, rfl, hr⟩
    exact (v.isValid_of_validateOrReport sink time hr).mp (hall _ _ hentry)
  · intro hall id validation hentry
    obtain ⟨t, ht, rfl, hr⟩ := (v.getElem?_validateAll sink time h id validation).mp hentry
    exact (v.isValid_of_validateOrReport sink time hr).mpr (hall t ht)

/-- The exit code is 0 exactly when every last trace with an id is accepted, else 2. So it speaks for the whole list
unless some trace is rejected while all last traces are accepted. Only a log that refuses the report of a failure leaves
a batch without validations. -/
theorem exit_code_validateAll (ts : List Trace) :
    (∃ vs, v.validateAll sink time ts = .ok vs ∧
      ((Command.Exit.ofValidations vs).code = 0 ↔ ∀ t, t.LastIn ts → v.Accepts sink time t) ∧
      ((Command.Exit.ofValidations vs).code ≠ 0 → (Command.Exit.ofValidations vs).code = 2) ∧
      (((Command.Exit.ofValidations vs).code = 0 ↔ ∀ t ∈ ts, v.Accepts sink time t) ↔
        ¬ ((∃ t ∈ ts, ¬ v.Accepts sink time t) ∧ ∀ t, t.LastIn ts → v.Accepts sink time t))) ∨
    ∃ failure, v.validateAll sink time ts = .error failure ∧
      ∃ t ∈ ts, ∃ cause, v.validate sink time t = .error cause ∧
        sink.refusal (failureEntry t cause) = some failure := by
  cases h : v.validateAll sink time ts with
  | error failure => exact Or.inr ⟨failure, rfl, v.validateAll_error sink time h⟩
  | ok vs =>
      have hvalid := v.allValid_validateAll sink time h
      have hcode : (Command.Exit.ofValidations vs).code = 0 ↔ vs.allValid := by
        cases hv : vs.allValid <;> simp [Command.Exit.ofValidations, Command.Exit.code, hv]
      have htwo : (Command.Exit.ofValidations vs).code ≠ 0 → (Command.Exit.ofValidations vs).code = 2 := by
        cases hv : vs.allValid <;> simp [Command.Exit.ofValidations, Command.Exit.code, hv]
      refine Or.inl ⟨vs, rfl, hcode.trans hvalid, htwo, ?_⟩
      rw [hcode, hvalid]
      constructor
      · rintro hiff ⟨⟨t, ht, hno⟩, hlast⟩
        exact hno (hiff.mp hlast t ht)
      · intro hno
        refine ⟨fun hlast t ht => ?_, fun hall t ht => hall t ht.mem⟩
        by_contra hrejected
        exact hno ⟨⟨t, ht, hrejected⟩, hlast⟩

/-- A trace without steps is rejected, and a later one with its id hides it from the exit code. -/
theorem exit_code_hides_replaced_trace :
    ∃ vs, ({} : Validator).validateAll .open 0
        [{ id := "login" }, { id := "login", steps := [{ order := 1 }] }] = .ok vs ∧
      (Command.Exit.ofValidations vs).code = 0 ∧ ¬ ({} : Validator).Accepts .open 0 { id := "login" } := by
  obtain ⟨vs, hvs⟩ := exists_validateAll_open {} 0 [{ id := "login" }, { id := "login", steps := [{ order := 1 }] }]
  refine ⟨vs, hvs, ?_, ?_⟩
  · have hall : vs.allValid := by
      rw [allValid_validateAll _ _ _ hvs]
      intro t ht
      have ht : t.LastIn ([{ id := "login" }] ++ [{ id := "login", steps := [{ order := 1 }] }]) := ht
      rcases Trace.lastIn_append_singleton.mp ht with rfl | ⟨ht, hne⟩
      · exact ⟨_, rfl, by decide +kernel⟩
      · obtain rfl : t = { id := "login" } := by simpa using ht.mem
        exact absurd rfl hne
    simp [Command.Exit.ofValidations, Command.Exit.code, hall]
  · rintro ⟨validation, heq, hvalid⟩
    cases heq
    exact absurd hvalid (by decide +kernel)

end Validator

end RuleFlow
