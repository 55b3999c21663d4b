import RuleFlow.Proofs.Document
import RuleFlow.Proofs.Trace.Document

/-!
# Traces are read as they were written

A document may spell out every field of its traces: texts as they are, the dependencies of a step as a list of texts,
and numbers by any numerals that are read as them. The reader then gives these traces back. Of all texts it trims only
the ids, so no more is asked of a trace than an id that is trimmed already.
-/

namespace RuleFlow

namespace Document

variable {reader : Reader} {d : Document} {s : Step} {t : Trace} {ts : List Trace}

/-! ## Documents that spell out traces -/

/-- All fields of a step under their keys, with the numerals of its numbers. -/
def stepEntries (s : Step) (order confidence : Text) : List (Text × Document) :=
  [("step_order", scalar order),
   ("step_type", scalar s.stepType),
   ("technology", scalar s.technology),
   ("component_name", scalar s.component),
   ("file_path", scalar s.file),
   ("dependencies", sequence (s.dependencies.map scalar)),
   ("business_logic", scalar s.businessLogic),
   ("confidence_score", scalar confidence)]

def SpellsStep (reader : Reader) (d : Document) (s : Step) : Prop :=
  ∃ order confidence, Trace.readOrder? reader order = some s.order ∧ reader.float? confidence = some s.confidence ∧
    d.HasEntries (stepEntries s order confidence)

/-- All fields of a trace under their keys, with the numeral of its number and with documents for its steps. -/
def traceEntries (t : Trace) (confidence : Text) (steps : List Document) : List (Text × Document) :=
  [("trace_id", scalar t.id),
   ("rule_name", scalar t.ruleName),
   ("business_domain", scalar t.businessDomain),
   ("entry_point", scalar t.entryPoint),
   ("extraction_confidence", scalar confidence),
   ("flow_steps", sequence steps)]

def SpellsTrace (reader : Reader) (d : Document) (t : Trace) : Prop :=
  ∃ confidence steps, reader.float? confidence = some t.confidence ∧ List.Forall₂ (SpellsStep reader) steps t.steps ∧
    d.HasEntries (traceEntries t confidence steps)

def documentEntries (traces : List Document) : List (Text × Document) := [("traces", sequence traces)]

def SpellsTraces (reader : Reader) (d : Document) (ts : List Trace) : Prop :=
  ∃ traces, List.Forall₂ (SpellsTrace reader) traces ts ∧ d.HasEntries (documentEntries traces)

/-! ## What they write -/

theorem nodup_stepEntries (s : Step) (order confidence : Text) :
    ((stepEntries s order confidence).map Prod.fst).Nodup := by
  simp [stepEntries]

theorem nodup_traceEntries (t : Trace) (confidence : Text) (steps : List Document) :
    ((traceEntries t confidence steps).map Prod.fst).Nodup := by
  simp [traceEntries]

theorem forall₂_isText_map_scalar (texts : List Text) : List.Forall₂ IsText (texts.map scalar) texts := by
  induction texts with
  | nil => exact .nil
  | cons text texts ih => exact .cons rfl ih

theorem SpellsStep.writesStep (h : d.SpellsStep reader s) : d.WritesStep reader s := by
  obtain ⟨order, confidence, horder, hconfidence, hentries⟩ := h
  have hgiven {key value} (hmem : (key, value) ∈ stepEntries s order confidence) (hnull : value ≠ null) :
      d.given? key = some value := hentries.given?_eq (nodup_stepEntries s order confidence) hmem hnull
  have htext {key text} (hmem : (key, scalar text) ∈ stepEntries s order confidence) : d.Field key [] IsText text :=
    .given (hgiven hmem (by simp)) rfl
  exact {
    mapping := hentries.isMapping
    order := ⟨scalar order, hgiven (by simp [stepEntries]) (by simp), order, rfl, horder⟩
    stepType := htext (by simp [stepEntries])
    technology := htext (by simp [stepEntries])
    component := htext (by simp [stepEntries])
    file := htext (by simp [stepEntries])
    dependencies := .given (hgiven (by simp [stepEntries]) (by simp)) (.inr ⟨_, rfl, forall₂_isText_map_scalar _⟩)
    businessLogic := htext (by simp [stepEntries])
    confidence := .given (hgiven (by simp [stepEntries]) (by simp)) ⟨confidence, rfl, hconfidence⟩ }

theorem SpellsTrace.writesTrace (h : d.SpellsTrace reader t) (hid : t.id ≠ []) (htrim : Text.trim t.id = t.id) :
    d.WritesTrace reader t := by
  obtain ⟨confidence, steps, hconfidence, hsteps, hentries⟩ := h
  have hgiven {key value} (hmem : (key, value) ∈ traceEntries t confidence steps) (hnull : value ≠ null) :
      d.given? key = some value := hentries.given?_eq (nodup_traceEntries t confidence steps) hmem hnull
  have htext {key text} (hmem : (key, scalar text) ∈ traceEntries t confidence steps) : d.Field key [] IsText text :=
    .given (hgiven hmem (by simp)) rfl
  exact {
    mapping := hentries.isMapping
    id := ⟨scalar t.id, t.id, hgiven (by simp [traceEntries]) (by simp), rfl, htrim.symm, hid⟩
    ruleName := htext (by simp [traceEntries])
    businessDomain := htext (by simp [traceEntries])
    entryPoint := htext (by simp [traceEntries])
    confidence := .given (hgiven (by simp [traceEntries]) (by simp)) ⟨confidence, rfl, hconfidence⟩
    steps := .given (hgiven (by simp [traceEntries]) (by simp))
      ⟨steps, rfl, hsteps.imp fun _ _ => SpellsStep.writesStep⟩ }

theorem forall₂_writesTrace {traces : List Document} (h : List.Forall₂ (SpellsTrace reader) traces ts)
    (hids : ∀ t ∈ ts, t.id ≠ [] ∧ Text.trim t.id = t.id) : List.Forall₂ (WritesTrace reader) traces ts := by
  induction h with
  | nil => exact .nil
  | cons htrace _ ih =>
      obtain ⟨⟨hid, htrim⟩, hothers⟩ := List.forall_mem_cons.mp hids
      exact .cons (htrace.writesTrace hid htrim) (ih hothers)

theorem SpellsTraces.writesTraces (h : d.SpellsTraces reader ts) (hids : ∀ t ∈ ts, t.id ≠ [] ∧ Text.trim t.id = t.id) :
    d.WritesTraces reader ts := by
  obtain ⟨traces, htraces, hentries⟩ := h
  have hkeys : ((documentEntries traces).map Prod.fst).Nodup := by simp [documentEntries]
  have hmem : (Text.ofString "traces", sequence traces) ∈ documentEntries traces := by simp [documentEntries]
  exact {
    mapping := hentries.isMapping
    present := by simp [hentries.get?_eq hkeys hmem]
    traces := .given (hentries.given?_eq hkeys hmem (by simp)) ⟨traces, rfl, forall₂_writesTrace htraces hids⟩ }

end Document

namespace Trace

open Document (Reader)

/-- Traces that are spelled out are read as they are, from a document, from any text that writes the document, from a
file with such a text, and so from the JSON text of the document by a reader of JSON. -/
theorem ofDocument_of_spells {reader : Reader} {d : Document} {ts : List Trace}
    (hids : ∀ t ∈ ts, t.id ≠ [] ∧ Text.trim t.id = t.id) (h : d.SpellsTraces reader ts) :
    ofDocument reader d = .ok ts ∧
      (reader.load = Document.loadJson → load d.toJson.render reader = .ok ts) ∧
      ∀ content, reader.load content = .ok d → load content reader = .ok ts ∧
        ∀ (tree : Tree) path, tree.status path = .ok (.file content) → loadFile tree path reader = .ok ts := by
  have hread : ofDocument reader d = .ok ts := ofDocument_eq_ok_iff.mpr (h.writesTraces hids)
  have hload (malformed) (content) (hcontent : reader.load content = .ok d) :
      loadWith reader malformed content = .ok ts := by
    rw [loadWith_eq_mapError hcontent, hread]
    rfl
  refine ⟨hread, fun hjson => hload _ _ ?_, fun content hcontent => ⟨hload _ _ hcontent, fun tree path hfile => ?_⟩⟩
  · rw [hjson]
    exact d.loadJson_render_toJson
  · rw [loadFile, hfile]
    exact hload _ _ hcontent

theorem ofDocument_of_spells_odd_texts :
    let s : Step := { order := 8, file := " a ", dependencies := ["", " ", "a,b", "c "], confidence := 0.5 }
    let t : Trace := { id := "a b", ruleName := " null", steps := [s], confidence := Number.nan }
    let step : Document := .mapping (Document.stepEntries s "010" ".5").reverse
    let d : Document := .mapping (Document.documentEntries [.mapping (Document.traceEntries t ".nan" [step])])
    ofDocument .json d = .ok [t] ∧ load d.toJson.render = .ok [t] := by
  intro s t step d
  have horder : readOrder? .json "010" = some 8 := by decide +kernel
  have hconfidence : Number.readFloat? ".5" = some 0.5 := by decide +kernel
  have hnan : Number.readFloat? ".nan" = some Number.nan := by decide +kernel
  have hstep : step.SpellsStep .json s := ⟨"010", ".5", horder, hconfidence, _, rfl, List.reverse_perm _⟩
  have htrace : List.Forall₂ (Document.SpellsTrace .json) [.mapping (Document.traceEntries t ".nan" [step])] [t] :=
    .cons ⟨".nan", [step], hnan, .cons hstep .nil, _, rfl, .refl _⟩ .nil
  have hids : ∀ u ∈ [t], u.id ≠ [] ∧ Text.trim u.id = u.id := by
    rintro u (_ | ⟨_, ⟨⟩⟩)
    exact ⟨by decide +kernel, by decide +kernel⟩
  obtain ⟨hread, hload, -⟩ := ofDocument_of_spells hids (d := d) ⟨_, htrace, _, rfl, .refl _⟩
  exact ⟨hread, hload rfl⟩

end Trace

end RuleFlow
