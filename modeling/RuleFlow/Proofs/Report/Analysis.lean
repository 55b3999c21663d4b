import RuleFlow.Proofs.Parser.Data
import RuleFlow.Proofs.Run.Calls
import RuleFlow.Proofs.Run.Pairs
import RuleFlow.Report.Analysis

/-!
# When the analysis report is JSON

Parsers may find any double. The report shows the finite ones as JSON numbers and the others as words, which JSON does
not have. So the report of a run is JSON exactly when all doubles that it shows are finite (`Shown`).
-/

namespace RuleFlow

open Json (Token Word AllNumbers)

/-! ## Doubles of a report -/

/-- All doubles of the result are finite. -/
structure Run.Result.Finite (r : Run.Result) : Prop where
  confidence : r.confidence.isFinite
  time : r.executionTime.isFinite
  data : r.data.Finite

/-- All doubles of the statistics are finite. -/
structure Run.Statistics.Finite (s : Run.Statistics) : Prop where
  successRate : s.averageSuccessRate.isFinite
  time : s.averageTime.isFinite

/-- All doubles that the report shows are finite. -/
structure Report.AnalysisInput.Finite (r : AnalysisInput) : Prop where
  statistics : r.statistics.Finite
  results : ∀ result ∈ r.results.flatten, result.Finite

/-! ## Numbers of a report -/

section Numbers

variable {p : Text → Prop}

namespace Report.AnalysisInput

theorem allNumbers_resultJson {r : Run.Result} : (resultJson r).AllNumbers p ↔
    p (Decimal.fixed 4 r.confidence) ∧ p (Text.ofInt r.attempts) ∧ p (Decimal.fixed 6 r.executionTime) ∧
      r.data.toJson.AllNumbers p := by
  simp [resultJson]

theorem allNumbers_statisticsJson {s : Run.Statistics} : (statisticsJson s).AllNumbers p ↔
    p (Text.ofNat s.totalExecutions) ∧ p (Decimal.fixed 4 s.averageSuccessRate) ∧ p (Decimal.fixed 6 s.averageTime) ∧
      p (Text.ofNat s.totalFiles) := by
  simp [statisticsJson]

theorem allNumbers_toJson {r : AnalysisInput} : r.toJson.AllNumbers p ↔
    (statisticsJson r.statistics).AllNumbers p ∧ ∀ result ∈ r.results.flatten, (resultJson result).AllNumbers p := by
  rw [Run.Results.flatten, List.forall_mem_flatMap]
  simp [toJson]

theorem spelled_toJson (r : AnalysisInput) : r.toJson.AllNumbers fun t => Token t ∨ Word t := by
  have hfixed : ∀ places x, Token (Decimal.fixed places x) ∨ Word (Decimal.fixed places x) := fun places x =>
    (Json.fixed_cases places x).imp And.right And.right
  rw [allNumbers_toJson, allNumbers_statisticsJson]
  refine ⟨⟨.inl (Json.token_ofNat _), hfixed _ _, hfixed _ _, .inl (Json.token_ofNat _)⟩, fun result _ => ?_⟩
  rw [allNumbers_resultJson, Parser.Data.allNumbers_toJson]
  exact ⟨hfixed _ _, .inl (Json.token_ofInt _), hfixed _ _, fun name x _ =>
    (Json.significant_cases 6 x).imp And.right And.right⟩

theorem wordless_toJson_iff {r : AnalysisInput} : (r.toJson.AllNumbers fun t => ¬ Word t) ↔ r.Finite := by
  have hfixed : ∀ places x, ¬ Word (Decimal.fixed places x) ↔ x.isFinite := by simp [Json.word_fixed_iff]
  have hnumber : ∀ x, ¬ Word (Parser.renderNumber x) ↔ x.isFinite := by
    simp [Parser.renderNumber, Json.word_significant_iff]
  simp only [allNumbers_toJson, allNumbers_statisticsJson, allNumbers_resultJson, Parser.Data.allNumbers_toJson, hfixed,
    hnumber, (Json.token_ofNat _).not_word, (Json.token_ofInt _).not_word, not_false_eq_true, true_and, and_true]
  constructor
  · rintro ⟨⟨hrate, htime⟩, hresults⟩
    exact ⟨⟨hrate, htime⟩, fun result hresult => ⟨(hresults result hresult).1, (hresults result hresult).2.1,
      (hresults result hresult).2.2⟩⟩
  · rintro ⟨⟨hrate, htime⟩, hresults⟩
    exact ⟨⟨hrate, htime⟩, fun result hresult => ⟨(hresults result hresult).confidence, (hresults result hresult).time,
      (hresults result hresult).data⟩⟩

theorem parse_of_finite {r : AnalysisInput} (h : r.Finite) : Json.parse r.toJson.render = some r.toJson :=
  Json.parse_render fun t ht => (r.spelled_toJson t ht).resolve_right (wordless_toJson_iff.mpr h t ht)

theorem parse_of_not_finite {r : AnalysisInput} (h : ¬ r.Finite) : Json.parse r.toJson.render = none :=
  Json.parse_render_of_word r.spelled_toJson (mt wordless_toJson_iff.mp h)

end Report.AnalysisInput

end Numbers

/-! ## Results of a run -/

namespace Run

open RuleFlow.Parser (Registry FilesByKind Descriptor)

/-- The confidence is the one that the findings state, or zero. -/
def Result.Derived (r : Result) : Prop := r.confidence = r.data.confidence ∨ r.confidence = 0

theorem derived_pairResult (machine : Machine) (registry : Registry) (t : Task) (patience : Nat) :
    (pairResult machine registry t patience).Derived := by
  unfold pairResult
  cases hprepared : prepare registry t with
  | inl p =>
      dsimp only [Pair.outcome]
      cases p.ending patience with
      | found data attempts => exact .inl rfl
      | failed message attempts => exact .inr rfl
      | unexplained attempts => exact .inr rfl
      | timedOut attempts => exact .inr rfl
  | inr r =>
      rw [prepare_eq] at hprepared
      split at hprepared <;> cases hprepared <;> exact .inr rfl

theorem derived_of_mem_execute {a : Analyzer} {machine : Machine} {plan : Plan} {files : FilesByKind} {r : Result}
    (h : r ∈ (a.execute machine plan files).1.flatten) : r.Derived := by
  rw [Analyzer.execute_fst, (Results.flatten_ofList_perm _).mem_iff] at h
  obtain ⟨phase, -, hphase⟩ := List.mem_flatMap.mp h
  obtain ⟨t, -, patience, -, rfl⟩ := exists_mem_of_forall₂ (forall₂_phaseResults _ _ _ _ _).flip hphase
  exact derived_pairResult machine a.registry t patience

theorem Parser.Data.isFinite_confidence {data : Parser.Data} (h : data.Finite) : data.confidence.isFinite := by
  unfold Parser.Data.confidence
  split
  · rename_i score hscore
    exact h _ score hscore
  · decide +kernel

theorem Result.Derived.isFinite_confidence {r : Result} (h : r.Derived) (hdata : r.data.Finite) :
    r.confidence.isFinite := by
  rcases h with h | h
  · rw [h]
    exact Parser.Data.isFinite_confidence hdata
  · rw [h]
    rfl

theorem Analyzer.derived_of_runFiles {a : Analyzer} {s : Surroundings} {repository : Text} {files : FilesByKind}
    {results : Results} (h : (a.runFiles s repository files).outcome = .ok results) :
    ∀ r ∈ results.flatten, r.Derived := by
  unfold runFiles at h
  split at h
  · cases h
  · cases h
    exact fun r => derived_of_mem_execute

/-- A call that succeeds brings results whose confidence comes from what was found. -/
theorem Analyzer.derived_of_call {a : Analyzer} {c : Call} {results : Results} (h : (a.call c).outcome = .ok results) :
    ∀ r ∈ results.flatten, r.Derived := by
  cases hfiles : a.filesOf c with
  | error e =>
      rw [(call_of_filesOf_error hfiles).1] at h
      cases h
  | ok files =>
      rw [(call_of_filesOf_ok hfiles).1] at h
      split at h
      · cases h
        simp [Results.flatten]
      · exact derived_of_runFiles h

/-- The report of the results of a call is JSON exactly if its statistics, the times of the parsers and all numbers that
they found are finite, and it is then read back as what was written. -/
theorem Analyzer.parse_report_call (a : Analyzer) (c : Call) (time : Instant) (source : Text)
    (statistics : Statistics) :
    (∃ e, (a.call c).outcome = .error e) ∨
    ∃ results, (a.call c).outcome = .ok results ∧
      let report : Report.AnalysisInput := { time, root := source, results, statistics }
      let finite := statistics.Finite ∧ ∀ r ∈ results.flatten, r.executionTime.isFinite ∧ r.data.Finite
      (finite → Json.parse (report.render [Report.jsonFormat]).json = some report.toJson) ∧
      (¬ finite → Json.parse (report.render [Report.jsonFormat]).json = none) := by
  cases h : (a.call c).outcome with
  | error e => exact .inl ⟨e, rfl⟩
  | ok results =>
      refine .inr ⟨results, rfl, ?_⟩
      intro report finite
      -- the confidence of a result need not be asked for: it is one of the numbers found, or zero
      have hfinite : finite ↔ report.Finite := by
        constructor
        · rintro ⟨hstatistics, hresults⟩
          refine ⟨hstatistics, fun r hr => ?_⟩
          obtain ⟨htime, hdata⟩ := hresults r hr
          exact ⟨(derived_of_call h r hr).isFinite_confidence hdata, htime, hdata⟩
        · rintro ⟨hstatistics, hresults⟩
          exact ⟨hstatistics, fun r hr => ⟨(hresults r hr).time, (hresults r hr).data⟩⟩
      rw [hfinite]
      exact ⟨Report.AnalysisInput.parse_of_finite, Report.AnalysisInput.parse_of_not_finite⟩

/-- A parser that states an infinite confidence leaves a report that is not JSON. -/
theorem Analyzer.report_of_infinite_confidence :
    ∃ (a : Analyzer) (c : Call) (results : Results), (a.call c).outcome = .ok results ∧
      results.flatten.map (·.confidence) = [Number.infinity] ∧
      Json.parse (({ time := 0, root := "/", results, statistics := a.statistics } : Report.AnalysisInput).render
        [Report.jsonFormat]).json = none := by
  let parser : Parser :=
    { outcome := fun _ _ => .found ((∅ : Parser.Data).insert Parser.confidenceName (.number Number.infinity)) }
  let registry : Registry :=
    { descriptor? := fun k => if k = .java then some { kind := .java, patterns := ["a"] } else none
      factory? := fun k => if k = .java then some (.makes parser) else none }
  let a : Analyzer := ⟨registry, {}, { capacity := 100 }⟩
  let c : Call := .analyzeFiles { tree := { root := [], workingDirectory := [] } } "/" ["a"]
  have hconfidence : ((a.call c).outcome.toOption.getD ∅).flatten.map (·.confidence) = [Number.infinity] := by
    decide +kernel
  cases h : (a.call c).outcome with
  | error e =>
      rw [h] at hconfidence
      cases hconfidence
  | ok results =>
      rw [h] at hconfidence
      refine ⟨a, c, results, h, hconfidence, Report.AnalysisInput.parse_of_not_finite fun hfinite => ?_⟩
      obtain ⟨r, hr, hinfinite⟩ := List.mem_map.mp (hconfidence ▸ List.mem_singleton_self Number.infinity :
        Number.infinity ∈ results.flatten.map (·.confidence))
      have hconfident := (hfinite.results r hr).confidence
      rw [hinfinite] at hconfident
      exact absurd hconfident (by decide +kernel)

end Run

end RuleFlow
