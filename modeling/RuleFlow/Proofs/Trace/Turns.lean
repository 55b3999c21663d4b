import RuleFlow.Proofs.Trace.Batch

/-!
# Traces in turn

In a batch each trace has its turn, and the log and the clock may change between two turns (`Turn`). What is found about
a trace depends on its own turn only. A trace whose validation fails is reported as a failure, and the others are none
the worse for it.
-/

namespace RuleFlow

/-- A trace whose turn has come, with the log and the time as they are then. -/
structure Turn where
  trace : Trace
  sink : Log.Sink
  time : Instant

/-- The turn is in the list, and none behind it is that of a trace with the same id. -/
def Turn.LastIn (turns : List Turn) (x : Turn) : Prop := LastBy (·.trace.id) turns x

/-- The validation without its time. -/
def Validation.untimed (v : Validation) : Validation := { v with time := 0 }

namespace Validator

/-- Validates the traces of the turns one after the other, with the log and at the time of each turn. -/
def validateTurns (v : Validator) (turns : List Turn) : Except Failure Validations :=
  collect (·.trace.id) (fun x => v.validateOrReport x.sink x.time x.trace) turns

/-- If the trace cannot be validated, the log takes the report of that. -/
def Reports (v : Validator) (x : Turn) : Prop :=
  ∀ cause, v.validate x.sink x.time x.trace = .error cause → x.sink.refusal (failureEntry x.trace cause) = none

variable {v : Validator} {sink : Log.Sink} {time : Instant} {t : Trace} {x : Turn} {turns : List Turn}
    {vs : Validations}

/-- The turns of a batch with a log and a clock that do not change. -/
theorem validateAll_eq_validateTurns (v : Validator) (sink : Log.Sink) (time : Instant) (ts : List Trace) :
    v.validateAll sink time ts = v.validateTurns (ts.map (⟨·, sink, time⟩)) := by
  rw [validateAll_eq_collect, validateTurns, collect, collect, List.foldlM_map]

/-! ## One turn -/

theorem exists_validateOrReport_iff :
    (∃ validation, v.validateOrReport x.sink x.time x.trace = .ok validation) ↔ v.Reports x := by
  unfold Reports
  cases h : v.validate x.sink x.time x.trace with
  | ok validation => simp [validateOrReport_of_ok h]
  | error cause =>
      rw [validateOrReport_of_error h]
      cases hrefused : x.sink.refusal (failureEntry x.trace cause) <;> simp [hrefused]

/-- At another time the same is found. -/
theorem validate_at (v : Validator) (sink : Log.Sink) (now time : Instant) (t : Trace) :
    v.validate sink time t = (v.validate sink now t).map ({ · with time := time }) := by
  unfold validate
  cases sink.deliver (v.entries t) <;> rfl

theorem validateOrReport_at (v : Validator) (sink : Log.Sink) (now time : Instant) (t : Trace) :
    v.validateOrReport sink time t = (v.validateOrReport sink now t).map ({ · with time := time }) := by
  have hvalidate := v.validate_at sink now time t
  cases h : v.validate sink now t with
  | ok validation =>
      rw [h] at hvalidate
      rw [validateOrReport_of_ok h, validateOrReport_of_ok hvalidate]
      rfl
  | error cause =>
      rw [h] at hvalidate
      rw [validateOrReport_of_error h, validateOrReport_of_error hvalidate]
      cases sink.refusal (failureEntry t cause) <;> rfl

/-! ## All turns -/

theorem exists_validateTurns_iff : (∃ vs, v.validateTurns turns = .ok vs) ↔ ∀ x ∈ turns, v.Reports x := by
  simp only [validateTurns, exists_collect_iff, exists_validateOrReport_iff]

/-- Only a log that refuses the report of a failure stops a batch. -/
theorem exists_not_reports_of_error {failure : Failure} (h : v.validateTurns turns = .error failure) :
    ∃ x ∈ turns, ¬ v.Reports x := by
  by_contra hall
  obtain ⟨vs, hok⟩ := exists_validateTurns_iff.mpr fun x hx => by_contra fun hno => hall ⟨x, hx, hno⟩
  rw [h] at hok
  cases hok

theorem getElem?_validateTurns (h : v.validateTurns turns = .ok vs) {id : Text} {validation : Validation} :
    vs[id]? = some validation ↔
      ∃ x, Turn.LastIn turns x ∧ x.trace.id = id ∧ v.validateOrReport x.sink x.time x.trace = .ok validation :=
  getElem?_collect h id validation

/-- Under an id stands what a validation of the last trace with the id finds, whenever it takes place. -/
theorem getElem?_of_validate (h : v.validateTurns turns = .ok vs) (hx : x.LastIn turns) {now : Instant}
    {validation : Validation} (hvalidation : v.validate x.sink now x.trace = .ok validation) :
    vs[x.trace.id]? = some { validation with time := x.time } := by
  refine (getElem?_validateTurns h).mpr ⟨x, hx, rfl, validateOrReport_of_ok ?_⟩
  rw [v.validate_at x.sink now x.time, hvalidation]
  rfl

theorem getElem?_of_validate_error (h : v.validateTurns turns = .ok vs) (hx : x.LastIn turns) {now : Instant}
    {failure : Failure} (hfailure : v.validate x.sink now x.trace = .error failure) :
    vs[x.trace.id]? = some (.failed failure.message x.time) := by
  have herror : v.validate x.sink x.time x.trace = .error failure := by
    rw [v.validate_at x.sink now x.time, hfailure]
    rfl
  have hreports := exists_validateTurns_iff.mp ⟨vs, h⟩ x hx.mem failure herror
  refine (getElem?_validateTurns h).mpr ⟨x, hx, rfl, ?_⟩
  rw [validateOrReport_of_error herror, hreports]

/-! ## Other orders -/

/-- Where the ids are different, what stands under an id is told from the traces and their logs alone, up to its time.
-/
theorem untimed_getElem?_iff (hids : (turns.map (·.trace.id)).Nodup) (h : v.validateTurns turns = .ok vs) {id : Text}
    {validation : Validation} :
    (vs[id]?).map .untimed = some validation ↔ ∃ p ∈ turns.map fun x => (x.trace, x.sink), p.1.id = id ∧
      v.validateOrReport p.2 0 p.1 = .ok validation := by
  simp only [Option.map_eq_some_iff, getElem?_validateTurns h, Turn.LastIn, lastBy_iff_mem hids]
  constructor
  · rintro ⟨found, ⟨x, hx, hid, hfound⟩, rfl⟩
    refine ⟨(x.trace, x.sink), List.mem_map_of_mem hx, hid, ?_⟩
    rw [v.validateOrReport_at x.sink x.time 0, hfound]
    rfl
  · rintro ⟨p, hp, hid, hfound⟩
    obtain ⟨x, hx, rfl⟩ := List.mem_map.mp hp
    refine ⟨{ validation with time := x.time }, ⟨x, hx, hid, ?_⟩, ?_⟩
    · rw [v.validateOrReport_at x.sink 0 x.time, hfound]
      rfl
    · have htime := v.validateOrReport_at x.sink 0 0 x.trace
      rw [hfound] at htime
      exact (Except.ok.inj htime).symm

theorem reports_of_perm {reordered : List Turn}
    (hperm : (reordered.map fun x => (x.trace, x.sink)).Perm (turns.map fun x => (x.trace, x.sink)))
    (h : ∀ x ∈ turns, v.Reports x) : ∀ x ∈ reordered, v.Reports x := by
  intro y hy
  obtain ⟨x, hx, heq⟩ := List.mem_map.mp (hperm.mem_iff.mp (List.mem_map_of_mem hy))
  obtain ⟨htrace, hsink⟩ := Prod.mk.inj heq
  intro cause hcause
  have hfails : v.validate x.sink x.time x.trace = .error cause := by
    rw [v.validate_at x.sink y.time x.time, htrace, hsink, hcause]
    rfl
  exact htrace ▸ hsink ▸ h x hx cause hfails

/-- A batch has a validation for each id of its traces, unless the log refuses the report of a failure. Under an id
stands what a validation of the last trace with the id finds, or that this failed. A trace has no influence on what
stands under other ids, and where the ids are different, nor has the order of the traces. -/
theorem validateTurns_entries (v : Validator) (turns : List Turn) :
    (∀ sink time ts, v.validateAll sink time ts = v.validateTurns (ts.map (⟨·, sink, time⟩))) ∧
      ((∃ x ∈ turns, ¬ v.Reports x) → ∃ failure, v.validateTurns turns = .error failure) ∧
      ((∀ x ∈ turns, v.Reports x) → ∃ vs, v.validateTurns turns = .ok vs ∧
        (∀ id, id ∈ vs ↔ ∃ x ∈ turns, x.trace.id = id) ∧
        (∀ x, Turn.LastIn turns x → ∀ now,
          (∀ validation, v.validate x.sink now x.trace = .ok validation →
            vs[x.trace.id]? = some { validation with time := x.time }) ∧
          ∀ failure, v.validate x.sink now x.trace = .error failure →
            vs[x.trace.id]? = some
              { isValid := false, confidence := 0, completeness := 0
                issues := [{ kind := .incompleteTrace, severity := .critical,
                             description := "Validation failed: " ++ failure.message }]
                recommendations := ["Validation failed - review trace manually"]
                time := x.time }) ∧
        (∀ before x after, turns = before ++ x :: after → ∃ others, v.validateTurns (before ++ after) = .ok others ∧
          ∀ id, id ≠ x.trace.id → vs[id]? = others[id]?) ∧
        ((turns.map (·.trace.id)).Nodup → ∀ reordered : List Turn,
          (reordered.map fun x => (x.trace, x.sink)).Perm (turns.map fun x => (x.trace, x.sink)) →
          ∃ ws, v.validateTurns reordered = .ok ws ∧
            ∀ id : Text, (ws[id]?).map Validation.untimed = (vs[id]?).map Validation.untimed)) := by
  refine ⟨v.validateAll_eq_validateTurns, ?_, fun hreports => ?_⟩
  · rintro ⟨x, hx, hno⟩
    cases h : v.validateTurns turns with
    | error failure => exact ⟨failure, rfl⟩
    | ok vs => exact absurd (exists_validateTurns_iff.mp ⟨vs, h⟩ x hx) hno
  obtain ⟨vs, h⟩ := exists_validateTurns_iff.mpr hreports
  refine ⟨vs, h, mem_collect h, fun x hx now =>
    ⟨fun _ => getElem?_of_validate h hx, fun _ => getElem?_of_validate_error h hx⟩,
    ?_, fun hids reordered hperm => ?_⟩
  · rintro before x after rfl
    have hrest : before ++ after ⊆ before ++ x :: after := ((List.sublist_cons_self x after).append_left before).subset
    obtain ⟨others, hothers⟩ := exists_validateTurns_iff.mpr fun y hy => hreports y (hrest hy)
    exact ⟨others, hothers, fun id hid => getElem?_collect_without h hothers hid⟩
  · obtain ⟨ws, hws⟩ := exists_validateTurns_iff.mpr (reports_of_perm hperm hreports)
    have hsame : (reordered.map (·.trace.id)).Nodup := by
      have hmap := (hperm.map (·.1.id)).nodup_iff
      simp only [List.map_map, Function.comp_def] at hmap
      exact hmap.mpr hids
    refine ⟨ws, hws, fun id => Option.ext fun validation => ?_⟩
    rw [untimed_getElem?_iff hsame hws, untimed_getElem?_iff hids h]
    exact exists_congr fun p => and_congr_left' hperm.mem_iff

end Validator

end RuleFlow
