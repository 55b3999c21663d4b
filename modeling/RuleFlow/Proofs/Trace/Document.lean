import RuleFlow.Proofs.Keyed
import RuleFlow.Trace.Reader

/-!
# Documents of traces

Which documents hold traces is told without the reader, by where a mapping, a list, a text or a number has to stand
(`Document.HoldsTraces`). The reader takes exactly these documents. Each trace that it gives is what one entry of the
document writes (`Document.WritesTrace`), and each step what one entry of the trace writes (`Document.WritesStep`), both
in the order of the document.
-/

namespace RuleFlow

/-- The items of a list have partners together if each one has one. -/
theorem exists_forall₂_iff {α β : Type} {R : α → β → Prop} {xs : List α} :
    (∃ ys, List.Forall₂ R xs ys) ↔ ∀ x ∈ xs, ∃ y, R x y := by
  induction xs with
  | nil => simp
  | cons x xs ih =>
      simp only [List.forall₂_cons_left_iff, List.forall_mem_cons, ← ih]
      constructor
      · rintro ⟨_, y, ys, hy, hys, rfl⟩
        exact ⟨⟨y, hy⟩, ys, hys⟩
      · rintro ⟨⟨y, hy⟩, ys, hys⟩
        exact ⟨_, y, ys, hy, hys, rfl⟩

namespace Document

/-! ## Values -/

def IsMapping (d : Document) : Prop := ∃ entries, d = mapping entries

def IsText (value : Document) (t : Text) : Prop := value = scalar t

/-- A text that a double is read from. -/
def IsNumber (reader : Reader) (value : Document) (x : Float) : Prop := ∃ t, value.IsText t ∧ reader.float? t = some x

/-- A text that a number of 32 bits is read from. -/
def IsOrder (reader : Reader) (value : Document) (n : Int) : Prop :=
  ∃ t, value.IsText t ∧ Trace.readOrder? reader t = some n

def IsListOf {α : Type} (R : Document → α → Prop) (value : Document) (xs : List α) : Prop :=
  ∃ items, value = sequence items ∧ List.Forall₂ R items xs

/-- One text with commas in it, or a list of texts that are taken as they are. -/
def IsTexts (value : Document) (ts : List Text) : Prop :=
  (∃ t, value.IsText t ∧ ts = Text.splitList Text.comma t) ∨ value.IsListOf IsText ts

/-- What is read under a key, or the default where the value is left out or null. -/
inductive Field {α : Type} (d : Document) (key : Text) (default : α) (Reads : Document → α → Prop) : α → Prop
  | omitted : d.given? key = none → Field d key default Reads default
  | given {value a} : d.given? key = some value → Reads value a → Field d key default Reads a

/-- The value under the key is such a one, unless it is left out or null. -/
def Allows (d : Document) (key : Text) (P : Document → Prop) : Prop := ∀ value, d.given? key = some value → P value

/-! ## What a document has to be -/

/-- The texts of a step. -/
def stepTexts : List Text := ["step_type", "technology", "component_name", "file_path", "business_logic"]

/-- The texts of a trace besides its id. -/
def traceTexts : List Text := ["rule_name", "business_domain", "entry_point"]

structure HoldsStep (reader : Reader) (d : Document) : Prop where
  mapping : d.IsMapping
  order : ∃ value, d.given? "step_order" = some value ∧ ∃ n, value.IsOrder reader n
  texts : ∀ key ∈ stepTexts, d.Allows key fun value => ∃ t, value.IsText t
  dependencies : d.Allows "dependencies" fun value =>
    (∃ t, value.IsText t) ∨ ∃ items, value = sequence items ∧ ∀ item ∈ items, ∃ t, item.IsText t
  confidence : d.Allows "confidence_score" fun value => ∃ x, value.IsNumber reader x

structure HoldsTrace (reader : Reader) (d : Document) : Prop where
  mapping : d.IsMapping
  id : ∃ value, d.given? "trace_id" = some value ∧ ∃ t, value.IsText t ∧ ¬ Text.isBlank t
  texts : ∀ key ∈ traceTexts, d.Allows key fun value => ∃ t, value.IsText t
  confidence : d.Allows "extraction_confidence" fun value => ∃ x, value.IsNumber reader x
  steps : d.Allows "flow_steps" fun value => ∃ items, value = sequence items ∧ ∀ item ∈ items, item.HoldsStep reader

/-- The entry of the traces has to be there, but may be null. -/
structure HoldsTraces (reader : Reader) (d : Document) : Prop where
  mapping : d.IsMapping
  present : d.get? "traces" ≠ none
  traces : d.Allows "traces" fun value => ∃ items, value = sequence items ∧ ∀ item ∈ items, item.HoldsTrace reader

/-! ## What it writes -/

structure WritesStep (reader : Reader) (d : Document) (s : Step) : Prop where
  mapping : d.IsMapping
  order : ∃ value, d.given? "step_order" = some value ∧ value.IsOrder reader s.order
  stepType : d.Field "step_type" [] IsText s.stepType
  technology : d.Field "technology" [] IsText s.technology
  component : d.Field "component_name" [] IsText s.component
  file : d.Field "file_path" [] IsText s.file
  dependencies : d.Field "dependencies" [] IsTexts s.dependencies
  businessLogic : d.Field "business_logic" [] IsText s.businessLogic
  confidence : d.Field "confidence_score" 0.5 (IsNumber reader) s.confidence

/-- The id is trimmed and not empty. -/
structure WritesTrace (reader : Reader) (d : Document) (t : Trace) : Prop where
  mapping : d.IsMapping
  id : ∃ value text, d.given? "trace_id" = some value ∧ value.IsText text ∧ t.id = Text.trim text ∧ t.id ≠ []
  ruleName : d.Field "rule_name" [] IsText t.ruleName
  businessDomain : d.Field "business_domain" [] IsText t.businessDomain
  entryPoint : d.Field "entry_point" [] IsText t.entryPoint
  confidence : d.Field "extraction_confidence" 0 (IsNumber reader) t.confidence
  steps : d.Field "flow_steps" [] (IsListOf (WritesStep reader)) t.steps

structure WritesTraces (reader : Reader) (d : Document) (ts : List Trace) : Prop where
  mapping : d.IsMapping
  present : d.get? "traces" ≠ none
  traces : d.Field "traces" [] (IsListOf (WritesTrace reader)) ts

section

variable {α ε : Type} {d value : Document} {key : Text} {default a : α} {R Reads : Document → α → Prop}

theorem isListOf_sequence {items : List Document} {xs : List α} :
    IsListOf R (sequence items) xs ↔ List.Forall₂ R items xs := by
  simp [IsListOf]

theorem exists_isListOf_iff :
    (∃ xs, value.IsListOf R xs) ↔ ∃ items, value = sequence items ∧ ∀ item ∈ items, ∃ x, R item x := by
  simp only [IsListOf, ← exists_forall₂_iff]
  constructor
  · rintro ⟨xs, items, hvalue, hxs⟩
    exact ⟨items, hvalue, xs, hxs⟩
  · rintro ⟨items, hvalue, xs, hxs⟩
    exact ⟨xs, items, hvalue, hxs⟩

theorem exists_isTexts_iff : (∃ ts, value.IsTexts ts) ↔
    (∃ t, value.IsText t) ∨ ∃ items, value = sequence items ∧ ∀ item ∈ items, ∃ t, item.IsText t := by
  simp only [IsTexts, exists_or, exists_isListOf_iff]
  constructor
  · rintro (⟨_, t, ht, -⟩ | hitems)
    · exact .inl ⟨t, ht⟩
    · exact .inr hitems
  · rintro (⟨t, ht⟩ | hitems)
    · exact .inl ⟨_, t, ht, rfl⟩
    · exact .inr hitems

/-- A reader of a field gives the default where there is no value, and else what is read. -/
theorem eq_ok_iff_field {r : Except ε α} (homitted : d.given? key = none → r = .ok default)
    (hgiven : ∀ value, d.given? key = some value → (r = .ok a ↔ Reads value a)) :
    r = .ok a ↔ d.Field key default Reads a := by
  cases h : d.given? key with
  | none =>
      rw [homitted h, Except.ok.injEq]
      constructor
      · rintro rfl
        exact .omitted h
      · rintro (_ | ⟨hvalue, -⟩)
        · rfl
        · rw [h] at hvalue
          cases hvalue
  | some value =>
      rw [hgiven value h]
      constructor
      · exact .given h
      · rintro (hnone | ⟨hvalue, hreads⟩)
        · rw [h] at hnone
          cases hnone
        · rw [h] at hvalue
          cases hvalue
          exact hreads

theorem exists_field_iff : (∃ a, d.Field key default Reads a) ↔ d.Allows key fun value => ∃ a, Reads value a := by
  constructor
  · rintro ⟨a, hnone | ⟨hgiven, hreads⟩⟩ value hvalue
    · rw [hnone] at hvalue
      cases hvalue
    · rw [hgiven] at hvalue
      cases hvalue
      exact ⟨_, hreads⟩
  · intro h
    cases hvalue : d.given? key with
    | none => exact ⟨default, .omitted hvalue⟩
    | some value =>
        obtain ⟨a, hreads⟩ := h value hvalue
        exact ⟨a, .given hvalue hreads⟩

end

end Document

/-! ## Reading -/

namespace Trace

open Document (IsText IsNumber IsTexts IsListOf Reader)

variable {reader : Reader} {d value : Document} {key id : Text} {place : Place} {s : Step} {t : Trace} {ts : List Trace}

theorem textField_eq_ok_iff {text : Text} : textField d key place = .ok text ↔ d.Field key [] IsText text := by
  refine Document.eq_ok_iff_field (fun h => by rw [textField, h]) (fun value h => ?_)
  rw [textField, h]
  cases value <;> simp [IsText]

theorem number_eq_ok_iff {α : Type} {read? : Text → Option α} {a : α} :
    number read? value key place = .ok a ↔ ∃ text, value.IsText text ∧ read? text = some a := by
  cases value with
  | scalar text => cases h : read? text <;> simp [number, IsText, h]
  | null | sequence | mapping => simp [number, IsText]

theorem scoreField_eq_ok_iff {default x : Float} :
    scoreField reader d key default place = .ok x ↔ d.Field key default (IsNumber reader) x := by
  refine Document.eq_ok_iff_field (fun h => by rw [scoreField, h]) (fun value h => ?_)
  rw [scoreField, h]
  exact number_eq_ok_iff

theorem dependenciesField_eq_ok_iff {texts : List Text} :
    dependenciesField d place = .ok texts ↔ d.Field "dependencies" [] IsTexts texts := by
  refine Document.eq_ok_iff_field (fun h => by rw [dependenciesField, h]) (fun value h => ?_)
  rw [dependenciesField, h]
  cases value with
  | null | mapping => simp [IsTexts, IsText, IsListOf]
  | scalar text => simp [IsTexts, IsText, IsListOf, eq_comm]
  | sequence items =>
      have hitem : ∀ (item : Document) (text : Text),
          item.text?.elim (Except.error (ReadError.dependenciesNotTexts place)) Except.ok = .ok text ↔
            item.IsText text := by
        intro item text
        cases item <;> simp [Document.text?, IsText]
      have htext : ¬ ∃ t, (Document.sequence items).IsText t := by simp [IsText]
      simp only [mapM_eq_ok_iff, hitem, IsTexts, Document.isListOf_sequence]
      exact ⟨.inr, fun h => h.resolve_left fun ⟨t, ht, _⟩ => htext ⟨t, ht⟩⟩

theorem readStep_eq_ok_iff : readStep reader id d = .ok s ↔ d.WritesStep reader s := by
  cases d with
  | mapping entries =>
      cases horder : (Document.mapping entries).given? "step_order" with
      | none =>
          refine iff_of_false (by simp [readStep, horder]) fun h => ?_
          obtain ⟨value, hvalue, -⟩ := h.order
          rw [horder] at hvalue
          cases hvalue
      | some value =>
          simp only [readStep, horder, bind_eq_ok_iff, number_eq_ok_iff, textField_eq_ok_iff,
            dependenciesField_eq_ok_iff,
            scoreField_eq_ok_iff]
          constructor
          · rintro ⟨_, hnumber, _, htype, _, htechnology, _, hcomponent, _, hfile, _, hdependencies, _, hlogic, _,
              hconfidence, ⟨⟩⟩
            exact ⟨⟨entries, rfl⟩, ⟨value, horder, hnumber⟩, htype, htechnology, hcomponent, hfile, hdependencies,
              hlogic,
              hconfidence⟩
          · rintro ⟨-, ⟨value', hvalue, hnumber⟩, htype, htechnology, hcomponent, hfile, hdependencies, hlogic,
              hconfidence⟩
            rw [horder] at hvalue
            cases hvalue
            exact ⟨_, hnumber, _, htype, _, htechnology, _, hcomponent, _, hfile, _, hdependencies, _, hlogic, _,
              hconfidence, rfl⟩
  | null | scalar | sequence =>
      refine iff_of_false (by simp [readStep]) fun h => ?_
      obtain ⟨_, ⟨⟩⟩ := h.mapping

theorem stepsField_eq_ok_iff {steps : List Step} :
    stepsField reader id d = .ok steps ↔ d.Field "flow_steps" [] (IsListOf (Document.WritesStep reader)) steps := by
  refine Document.eq_ok_iff_field (fun h => by rw [stepsField, h]) (fun value h => ?_)
  rw [stepsField, h]
  cases value with
  | sequence items => simp only [mapM_eq_ok_iff, readStep_eq_ok_iff, Document.isListOf_sequence]
  | null | scalar | mapping => simp [IsListOf]

theorem read_eq_ok_iff : read reader d = .ok t ↔ d.WritesTrace reader t := by
  cases d with
  | mapping entries =>
      simp only [read, bind_eq_ok_iff]
      constructor
      · rintro ⟨text, htext, hread⟩
        split at hread
        · cases hread
        rename_i hid
        rw [List.isEmpty_iff] at hid
        simp only [bind_eq_ok_iff, textField_eq_ok_iff, scoreField_eq_ok_iff, stepsField_eq_ok_iff] at htext hread
        obtain ⟨_, hname, _, hdomain, _, hentry, _, hconfidence, _, hsteps, ⟨⟩⟩ := hread
        refine ⟨⟨entries, rfl⟩, ?_, hname, hdomain, hentry, hconfidence, hsteps⟩
        obtain hnone | ⟨hvalue, hreads⟩ := htext
        · exact absurd rfl hid
        · exact ⟨_, text, hvalue, hreads, rfl, hid⟩
      · rintro ⟨-, ⟨value, text, hvalue, htext, hid, hne⟩, hname, hdomain, hentry, hconfidence, hsteps⟩
        refine ⟨text, textField_eq_ok_iff.mpr (.given hvalue htext), ?_⟩
        rw [hid] at hne
        rw [if_neg (by rwa [List.isEmpty_iff])]
        simp only [bind_eq_ok_iff, textField_eq_ok_iff, scoreField_eq_ok_iff, stepsField_eq_ok_iff]
        refine ⟨_, hname, _, hdomain, _, hentry, _, hconfidence, _, hsteps, ?_⟩
        rw [← hid]
        rfl
  | null | scalar | sequence =>
      refine iff_of_false (by simp [read]) fun h => ?_
      obtain ⟨_, ⟨⟩⟩ := h.mapping

theorem ofDocument_eq_ok_iff : ofDocument reader d = .ok ts ↔ d.WritesTraces reader ts := by
  cases d with
  | mapping entries =>
      cases hget : (Document.mapping entries).get? "traces" with
      | none => exact iff_of_false (by simp [ofDocument, hget]) fun h => h.present hget
      | some value =>
          have hpresent : (Document.mapping entries).get? "traces" ≠ none := by simp [hget]
          have htraces : ofDocument reader (.mapping entries) = .ok ts ↔
              (Document.mapping entries).Field "traces" [] (IsListOf (Document.WritesTrace reader)) ts := by
            refine Document.eq_ok_iff_field (fun h => ?_) (fun given h => ?_)
            · cases value <;> simp [Document.given?, hget] at h
              rw [ofDocument, hget]
            · cases value with
              | null => simp [Document.given?, hget] at h
              | sequence items =>
                  obtain rfl : Document.sequence items = given := by simpa [Document.given?, hget] using h
                  simp only [ofDocument, hget, mapM_eq_ok_iff, read_eq_ok_iff, Document.isListOf_sequence]
              | scalar | mapping =>
                  obtain rfl : _ = given := by simpa only [Document.given?, hget, Option.some.injEq] using h
                  rw [ofDocument, hget]
                  simp [IsListOf]
          exact htraces.trans ⟨fun h => ⟨⟨entries, rfl⟩, hpresent, h⟩, fun h => h.traces⟩
  | null | scalar | sequence =>
      refine iff_of_false (by simp [ofDocument]) fun h => ?_
      obtain ⟨_, ⟨⟩⟩ := h.mapping

end Trace

/-! ## What can be read -/

namespace Document

variable {reader : Reader} {d : Document}

theorem exists_writesStep_iff : (∃ s, d.WritesStep reader s) ↔ d.HoldsStep reader := by
  have htexts (key : Text) : (d.Allows key fun value => ∃ t, value.IsText t) ↔ ∃ t, d.Field key [] IsText t :=
    exists_field_iff.symm
  constructor
  · rintro ⟨s, h⟩
    obtain ⟨value, hvalue, horder⟩ := h.order
    refine ⟨h.mapping, ⟨value, hvalue, _, horder⟩, ?_, ?_, exists_field_iff.mp ⟨_, h.confidence⟩⟩
    · simp only [stepTexts, List.forall_mem_cons, htexts]
      exact ⟨⟨_, h.stepType⟩, ⟨_, h.technology⟩, ⟨_, h.component⟩, ⟨_, h.file⟩, ⟨_, h.businessLogic⟩, by simp⟩
    · simp only [← exists_isTexts_iff]
      exact exists_field_iff.mp ⟨_, h.dependencies⟩
  · rintro ⟨hmapping, ⟨value, hvalue, n, horder⟩, htext, hdependencies, hconfidence⟩
    simp only [stepTexts, List.forall_mem_cons, htexts] at htext
    simp only [← exists_isTexts_iff] at hdependencies
    obtain ⟨⟨stepType, htype⟩, ⟨technology, htechnology⟩, ⟨component, hcomponent⟩, ⟨file, hfile⟩,
      ⟨businessLogic, hlogic⟩, -⟩ :=
      htext
    obtain ⟨dependencies, hdependencies⟩ := exists_field_iff.mpr hdependencies
    obtain ⟨confidence, hconfidence⟩ := exists_field_iff.mpr hconfidence
    exact ⟨{ order := n, stepType, technology, component, file, dependencies, businessLogic, confidence },
      hmapping, ⟨value, hvalue, horder⟩, htype, htechnology, hcomponent, hfile, hdependencies, hlogic, hconfidence⟩

theorem exists_writesTrace_iff : (∃ t, d.WritesTrace reader t) ↔ d.HoldsTrace reader := by
  have htexts (key : Text) : (d.Allows key fun value => ∃ t, value.IsText t) ↔ ∃ t, d.Field key [] IsText t :=
    exists_field_iff.symm
  have hsteps : (∃ steps, d.Field "flow_steps" [] (IsListOf (WritesStep reader)) steps) ↔
      d.Allows "flow_steps" fun value => ∃ items, value = sequence items ∧ ∀ item ∈ items, item.HoldsStep reader := by
    simp only [exists_field_iff, exists_isListOf_iff, exists_writesStep_iff]
  constructor
  · rintro ⟨t, h⟩
    obtain ⟨value, text, hvalue, htext, hid, hne⟩ := h.id
    rw [hid, Ne, Text.trim_eq_nil_iff] at hne
    refine ⟨h.mapping, ⟨value, hvalue, text, htext, hne⟩, ?_, exists_field_iff.mp ⟨_, h.confidence⟩,
      hsteps.mp ⟨_, h.steps⟩⟩
    simp only [traceTexts, List.forall_mem_cons, htexts]
    exact ⟨⟨_, h.ruleName⟩, ⟨_, h.businessDomain⟩, ⟨_, h.entryPoint⟩, by simp⟩
  · rintro ⟨hmapping, ⟨value, hvalue, text, htext, hne⟩, hfields, hconfidence, hflow⟩
    simp only [traceTexts, List.forall_mem_cons, htexts] at hfields
    obtain ⟨⟨ruleName, hname⟩, ⟨businessDomain, hdomain⟩, ⟨entryPoint, hentry⟩, -⟩ := hfields
    obtain ⟨confidence, hconfidence⟩ := exists_field_iff.mpr hconfidence
    obtain ⟨steps, hflow⟩ := hsteps.mpr hflow
    have hid : Text.trim text ≠ [] := fun h => hne (Text.trim_eq_nil_iff.mp h)
    exact ⟨{ id := Text.trim text, ruleName, businessDomain, entryPoint, confidence, steps },
      hmapping, ⟨value, text, hvalue, htext, rfl, hid⟩, hname, hdomain, hentry, hconfidence, hflow⟩

theorem exists_writesTraces_iff : (∃ ts, d.WritesTraces reader ts) ↔ d.HoldsTraces reader := by
  have htraces : (∃ ts, d.Field "traces" [] (IsListOf (WritesTrace reader)) ts) ↔
      d.Allows "traces" fun value => ∃ items, value = sequence items ∧ ∀ item ∈ items, item.HoldsTrace reader := by
    simp only [exists_field_iff, exists_isListOf_iff, exists_writesTrace_iff]
  constructor
  · rintro ⟨ts, h⟩
    exact ⟨h.mapping, h.present, htraces.mp ⟨ts, h.traces⟩⟩
  · rintro ⟨hmapping, hpresent, h⟩
    obtain ⟨ts, h⟩ := htraces.mpr h
    exact ⟨ts, hmapping, hpresent, h⟩

end Document

namespace Trace

theorem loadWith_eq_mapError {reader : Document.Reader} {malformed : Document.SyntaxError → LoadError} {content : Text}
    {d : Document}
    (h : reader.load content = .ok d) :
    loadWith reader malformed content = (ofDocument reader d).mapError .content := by
  rw [loadWith, h]
  cases hread : ofDocument reader d <;> simp [Except.mapError, hread]

/-- Traces are loaded from exactly the documents that hold some, and are then what the document writes. -/
theorem ofDocument_cases (reader : Document.Reader) (d : Document) :
    ((d.HoldsTraces reader ∧ ∃ ts, ofDocument reader d = .ok ts ∧ d.WritesTraces reader ts) ∨
      (¬ d.HoldsTraces reader ∧ ∃ e, ofDocument reader d = .error e)) ∧
      ∀ malformed content, reader.load content = .ok d →
        loadWith reader malformed content = (ofDocument reader d).mapError .content := by
  refine ⟨?_, fun malformed content => loadWith_eq_mapError⟩
  rw [← Document.exists_writesTraces_iff]
  cases hread : ofDocument reader d with
  | ok ts =>
      have hwrites := ofDocument_eq_ok_iff.mp hread
      exact .inl ⟨⟨ts, hwrites⟩, ts, rfl, hwrites⟩
  | error e =>
      refine .inr ⟨?_, e, rfl⟩
      rintro ⟨ts, hwrites⟩
      rw [ofDocument_eq_ok_iff.mpr hwrites] at hread
      cases hread

end Trace

end RuleFlow
