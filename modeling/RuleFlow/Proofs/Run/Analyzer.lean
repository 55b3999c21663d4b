import RuleFlow.Proofs.Discovery
import RuleFlow.Proofs.Plan.Order
import RuleFlow.Proofs.Run.History
import RuleFlow.Proofs.Run.Phase
import RuleFlow.Run.Analyzer

/-!
# Runs of an analyzer

From the files of each kind to the results by file and to the record of a run no pair of a kind and a file is lost,
repeated or made up: what each phase lists is a permutation of its pairs, and so is what all phases list together.
-/

namespace RuleFlow

open RuleFlow.Parser (Kind Descriptor Registry FilesByKind)

namespace Run

open RuleFlow.Plan (Needs Phase phasesOf candidates kinds)

variable {machine : Machine} {registry : Registry} {files : FilesByKind} {phases : List Phase}

/-! ## The results of a plan -/

/-- The results of phases in the order in which they are listed. -/
def planResults (machine : Machine) (workers : Nat) (registry : Registry) (phases : List Phase) (files : FilesByKind) :
    List Result :=
  phases.flatMap fun phase => phaseResults machine workers registry phase.ordered files

theorem Analyzer.execute_eq_foldl (a : Analyzer) (machine : Machine) (p : Plan) (files : FilesByKind) :
    (a.execute machine p files).1 =
      (p.phases.map fun phase =>
        (runPhase machine a.settings.maxWorkers a.registry phase.ordered files).1).foldl Results.merge ∅ := by
  have hran : ((p.phases.mapIdx fun i phase =>
      (phaseEntry (i + 1) p.phases.length phase,
        runPhase machine a.settings.maxWorkers a.registry phase.ordered files)).map (·.2.1)) =
      p.phases.map fun phase => (runPhase machine a.settings.maxWorkers a.registry phase.ordered files).1 := by
    apply List.ext_getElem
    · simp
    · simp
  exact congrArg (·.foldl Results.merge ∅) hran

theorem Analyzer.execute_fst (a : Analyzer) (machine : Machine) (p : Plan) (files : FilesByKind) :
    (a.execute machine p files).1 =
      Results.ofList (planResults machine a.settings.maxWorkers a.registry p.phases files) := by
  have hmerged := Results.foldl_merge_ofList
    (p.phases.map fun phase => phaseResults machine a.settings.maxWorkers a.registry phase.ordered files) []
  rw [List.map_map] at hmerged
  rw [execute_eq_foldl, planResults, List.flatMap_def]
  simp only [runPhase_fst]
  exact hmerged

theorem map_key_planResults_perm (machine : Machine) (workers : Nat) (registry : Registry) (phases : List Phase)
    (files : FilesByKind) :
    ((planResults machine workers registry phases files).map Result.key).Perm
      (keysOf (kinds (phases.flatMap (·.members))) files) := by
  induction phases with
  | nil => exact .refl _
  | cons phase phases ih =>
      have hphase := map_key_phaseResults_perm machine workers registry phase.ordered files
      have hordered := ((Plan.ordered_perm phase).map (·.kind)).flatMap_right fun k => (files k).map (k, ·)
      rw [planResults, List.flatMap_cons, List.map_append, List.flatMap_cons, kinds, List.map_append, keysOf,
        List.flatMap_append]
      exact (hphase.trans hordered).append ih

/-- A plan for the kinds with files has the results of each of these kinds for each of its files. -/
theorem map_key_candidates_perm (machine : Machine) (workers : Nat) (hkeyed : registry.Keyed)
    (hall : ∀ k, files.has k → (registry.descriptor? k).isSome) :
    ((planResults machine workers registry (phasesOf (candidates files.has registry)) files).map Result.key).Perm
      (keysOf files.kinds files) := by
  have hmembers := (Plan.flatMap_members_phasesOf_perm (candidates files.has registry)).map (·.kind)
  have hkinds := hmembers.flatMap_right fun k => (files k).map (k, ·)
  refine (map_key_planResults_perm machine workers registry _ files).trans (hkinds.trans ?_)
  have hcandidates := Plan.kinds_candidates hkeyed hall
  rw [kinds] at hcandidates
  rw [hcandidates]
  exact .refl _

/-- Where the needs have no cycle, no result is before one of what its kind needs. -/
theorem pairwise_planResults (machine : Machine) (workers : Nat) (hkeyed : registry.Keyed)
    (hall : ∀ k, files.has k → (registry.descriptor? k).isSome) (hacyclic : Acyclic (Needs files.has registry)) :
    (planResults machine workers registry (phasesOf (candidates files.has registry)) files).Pairwise
      fun earlier later => ¬ Needs files.has registry earlier.kind later.kind := by
  have hkind : ∀ (phase : Phase), ∀ r ∈ phaseResults machine workers registry phase.ordered files,
      r.kind ∈ kinds phase.members :=
    fun phase r hr => ((Plan.ordered_perm phase).map (·.kind)).mem_iff.mp (kind_mem_of_mem_phaseResults hr)
  obtain ⟨hsame, hpairwise⟩ := Plan.pairwise_not_needs hkeyed hall hacyclic
  refine List.pairwise_flatMap.mpr ⟨fun phase hphase => ?_, hpairwise.imp fun hno r hr later hlater => ?_⟩
  · apply List.pairwise_of_forall_mem_list
    intro r hr later hlater
    exact hsame phase hphase _ (hkind phase r hr) _ (hkind phase later hlater)
  · exact hno _ (hkind _ r hr) _ (hkind _ later hlater)

/-! ## Results by file -/

/-- The results of files by kind: exactly one for each file and each kind that it belongs to, listed under the file, and
behind the results of what the kind needs. -/
structure Covers (registry : Registry) (files : FilesByKind) (results : Results) : Prop where
  mem_iff : ∀ file, file ∈ results ↔ ∃ k, file ∈ files k
  file_eq : ∀ file, ∀ r ∈ results.listed file, r.file = file
  once : ∀ file k, (results.listed file).countP (·.kind = k) = if file ∈ files k then 1 else 0
  ordered : Acyclic (Needs files.has registry) → ∀ (file : Text) (i j : Nat) (r needed : Result),
    (results.listed file)[i]? = some r → (results.listed file)[j]? = some needed →
      Needs files.has registry r.kind needed.kind → j < i

variable {all : List Result}

theorem mem_key_iff (hperm : (all.map Result.key).Perm (keysOf files.kinds files)) {k : Kind} {file : Text} :
    (∃ r ∈ all, r.key = (k, file)) ↔ file ∈ files k := by
  rw [← List.mem_map, hperm.mem_iff, mem_keysOf, Parser.FilesByKind.mem_kinds]
  exact ⟨And.right, fun h => ⟨⟨file, h⟩, h⟩⟩

theorem countP_key (hperm : (all.map Result.key).Perm (keysOf files.kinds files)) (hfiles : ∀ k, (files k).Nodup)
    (k : Kind) (file : Text) : (all.filter (·.file = file)).countP (·.kind = k) = if file ∈ files k then 1 else 0 := by
  have hkey : (all.filter (·.file = file)).countP (·.kind = k) = (all.map Result.key).count (k, file) := by
    rw [List.countP_filter, List.count, List.countP_map]
    apply List.countP_congr
    intro r _
    simp [Result.key]
  have hmem : (k, file) ∈ keysOf files.kinds files ↔ file ∈ files k := by
    rw [← mem_key_iff hperm, ← List.mem_map, hperm.mem_iff]
  rw [hkey, hperm.count_eq, (nodup_keysOf files.nodup_kinds hfiles).count]
  simp only [hmem]

theorem covers_ofList (hperm : (all.map Result.key).Perm (keysOf files.kinds files)) (hfiles : ∀ k, (files k).Nodup)
    (hordered : Acyclic (Needs files.has registry) →
      all.Pairwise fun earlier later => ¬ Needs files.has registry earlier.kind later.kind) :
    Covers registry files (Results.ofList all) where
  mem_iff file := by
    rw [Results.mem_ofList]
    constructor
    · rintro ⟨r, hr, rfl⟩
      exact ⟨r.kind, (mem_key_iff hperm).mp ⟨r, hr, rfl⟩⟩
    · rintro ⟨k, hk⟩
      obtain ⟨r, hr, hkey⟩ := (mem_key_iff hperm).mpr hk
      exact ⟨r, hr, congrArg Prod.snd hkey⟩
  file_eq file r hr := by
    rw [Results.listed_ofList] at hr
    simpa using (List.mem_filter.mp hr).2
  once file k := by
    rw [Results.listed_ofList]
    exact countP_key hperm hfiles k file
  ordered hacyclic file i j r needed hi hj hneeds := by
    have hpairwise := (hordered hacyclic).filter (·.file = file)
    rw [← Results.listed_ofList, List.pairwise_iff_getElem] at hpairwise
    obtain ⟨hilt, rfl⟩ := List.getElem?_eq_some_iff.mp hi
    obtain ⟨hjlt, rfl⟩ := List.getElem?_eq_some_iff.mp hj
    rcases Nat.lt_trichotomy i j with hlt | rfl | hgt
    · exact absurd hneeds (hpairwise i j hilt hjlt hlt)
    · exact absurd (.single hneeds) (hacyclic _)
    · exact hgt

/-! ## Records -/

theorem length_of_perm (hperm : (all.map Result.key).Perm (keysOf files.kinds files)) :
    (Results.ofList all).flatten.length = (Kind.all.map fun k => (files k).length).sum := by
  rw [(Results.flatten_ofList_perm all).length_eq, ← List.length_map Result.key, hperm.length_eq, length_keysOf_kinds]

theorem size_of_perm (hperm : (all.map Result.key).Perm (keysOf files.kinds files)) :
    (Results.ofList all).size = (Kind.all.flatMap files).toFinset.card := by
  rw [Results.size_ofList]
  congr 1
  ext file
  simp only [List.mem_toFinset, List.mem_map, List.mem_flatMap]
  constructor
  · rintro ⟨r, hr, rfl⟩
    exact ⟨r.kind, r.kind.mem_all, (mem_key_iff hperm).mp ⟨r, hr, rfl⟩⟩
  · rintro ⟨k, -, hk⟩
    obtain ⟨r, hr, hkey⟩ := (mem_key_iff hperm).mpr hk
    exact ⟨r, hr, congrArg Prod.snd hkey⟩

/-! ## Runs -/

namespace Analyzer

/-- An analyzer that was made with a registry and then called any number of times. -/
inductive Reachable : Analyzer → Prop
  | create {registry : Registry} {settings a} : registry.Reachable → create registry settings = .ok a → Reachable a
  | analyze {a} (s : Surroundings) (root : Text) : Reachable a → Reachable (a.analyze s root).after
  | analyzeFiles {a} (s : Surroundings) (root : Text) (files : List Text) :
      Reachable a → Reachable (a.analyzeFiles s root files).after

variable {a : Analyzer}

/-- A call keeps the registry, and the history unless it adds a record. -/
theorem runFiles_after (a : Analyzer) (s : Surroundings) (repository : Text) (files : FilesByKind) :
    (a.runFiles s repository files).after = a ∨
      ∃ record, (a.runFiles s repository files).after = { a with history := a.history.record record } := by
  unfold runFiles
  split
  · exact .inl rfl
  · exact .inr ⟨_, rfl⟩

theorem analyze_after (a : Analyzer) (s : Surroundings) (root : Text) :
    (a.analyze s root).after = a ∨
      ∃ record, (a.analyze s root).after = { a with history := a.history.record record } := by
  unfold analyze
  dsimp only
  split
  · exact .inl rfl
  · split
    · exact .inl rfl
    · exact a.runFiles_after s root _

theorem analyzeFiles_after (a : Analyzer) (s : Surroundings) (root : Text) (files : List Text) :
    (a.analyzeFiles s root files).after = a ∨
      ∃ record, (a.analyzeFiles s root files).after = { a with history := a.history.record record } := by
  unfold analyzeFiles
  dsimp only
  split
  · exact .inl rfl
  · split
    · exact .inl rfl
    · exact a.runFiles_after s root _

theorem create_ok {settings : Settings} (h : create registry settings = .ok a) :
    a.registry = registry ∧ a.settings = settings ∧ a.history.Fits := by
  unfold create at h
  cases hhistory : History.ofCapacity settings.historyCapacity with
  | error e =>
      rw [hhistory] at h
      cases h
  | ok history =>
      rw [hhistory] at h
      dsimp only at h
      split at h
      · cases h
      · cases h
        exact ⟨rfl, rfl, History.fits_ofCapacity hhistory⟩

theorem Reachable.registry_reachable_and_fits (h : a.Reachable) : a.registry.Reachable ∧ a.history.Fits := by
  induction h with
  | create hregistry hcreate =>
      obtain ⟨rfl, -, hfits⟩ := create_ok hcreate
      exact ⟨hregistry, hfits⟩
  | @analyze a s root _ ih =>
      rcases a.analyze_after s root with hafter | ⟨record, hafter⟩
      · rw [hafter]; exact ih
      · rw [hafter]; exact ⟨ih.1, ih.2.record record⟩
  | @analyzeFiles a s root files _ ih =>
      rcases a.analyzeFiles_after s root files with hafter | ⟨record, hafter⟩
      · rw [hafter]; exact ih
      · rw [hafter]; exact ⟨ih.1, ih.2.record record⟩

theorem size_candidates (hkeyed : registry.Keyed) (hall : ∀ k, files.has k → (registry.descriptor? k).isSome) :
    (⟨phasesOf (candidates files.has registry)⟩ : Plan).size = files.kinds.length := by
  have hcandidates := congrArg List.length (Plan.kinds_candidates hkeyed hall)
  rw [kinds, List.length_map] at hcandidates
  rw [Plan.size, (Plan.flatMap_members_phasesOf_perm _).length_eq, hcandidates]
  rfl

/-- With a descriptor for each kind that has files a run takes place, whatever its parsers do. -/
theorem runFiles_ok (s : Surroundings) (repository : Text) (hkeyed : a.registry.Keyed)
    (hall : ∀ k, files.has k → (a.registry.descriptor? k).isSome) :
    let phases := phasesOf (candidates files.has a.registry)
    let results := Results.ofList (planResults s.machine a.settings.maxWorkers a.registry phases files)
    (a.runFiles s repository files).outcome = .ok results ∧
      (a.runFiles s repository files).after =
        { a with history := a.history.record
                   (Record.ofResults s.time repository phases.length files.kinds.length results) } := by
  intro phases results
  have hforFiles : Plan.forFiles files a.registry = .ok ⟨phases⟩ := Plan.make_eq_ok hall
  have hplan : a.plan files = .ok (⟨phases⟩, Plan.entries ⟨phases⟩) := by rw [plan, hforFiles]
  have hexecute := a.execute_fst s.machine ⟨phases⟩ files
  have hsize := size_candidates hkeyed hall
  simp only [runFiles, hplan, hexecute, phases, hsize]
  exact ⟨rfl, rfl⟩

/-! ## Listed files -/

section ListedFiles

variable {s : Surroundings} {root : Text} {paths : List Text} {entries : List Log.Entry}

theorem analyzeFiles_of_forall (hmatched : Discovery.matchFiles s.tree.workingPath a.registry.descriptors root paths =
    .ok (files, entries)) (hnone : ∀ k, files k = []) :
    (a.analyzeFiles s root paths).outcome = .ok ∅ ∧ (a.analyzeFiles s root paths).after = a := by
  have hkinds := Parser.FilesByKind.kinds_eq_nil hnone
  simp [analyzeFiles, hmatched, hkinds]

theorem analyzeFiles_of_mem (hmatched : Discovery.matchFiles s.tree.workingPath a.registry.descriptors root paths =
    .ok (files, entries)) {k : Kind} {file : Text} (hfile : file ∈ files k) :
    (a.analyzeFiles s root paths).outcome = (a.runFiles s root files).outcome ∧
      (a.analyzeFiles s root paths).after = (a.runFiles s root files).after := by
  have hkinds : files.kinds ≠ [] := List.ne_nil_of_mem (Parser.FilesByKind.mem_kinds.mpr ⟨file, hfile⟩)
  simp [analyzeFiles, hmatched, hkinds]

end ListedFiles

/-- A call on listed files fails only where one of the paths cannot be brought into normal form. Otherwise the results
cover the files that were matched, whatever the factories and parsers do; and if some file was matched, one record is
added, for which the oldest one goes when the history is full. -/
theorem analyzeFiles_covers (ha : a.Reachable) (s : Surroundings) (root : Text) (paths : List Text) :
    (∃ fault, Discovery.matchFiles s.tree.workingPath a.registry.descriptors root paths = .error fault ∧
      (a.analyzeFiles s root paths).outcome = .error (.file fault) ∧ (a.analyzeFiles s root paths).after = a) ∨
    ∃ files entries results,
      Discovery.matchFiles s.tree.workingPath a.registry.descriptors root paths = .ok (files, entries) ∧
      (a.analyzeFiles s root paths).outcome = .ok results ∧ Covers a.registry files results ∧
      ((∀ k, files k = []) → (a.analyzeFiles s root paths).after = a) ∧
      ((∃ k file, file ∈ files k) → ∃ record : Record,
        (a.analyzeFiles s root paths).after = { a with
          history.records := (if a.history.records.length < a.history.capacity then a.history.records
            else a.history.records.tail) ++ [record] } ∧
        record.attempts = (Kind.all.map fun k => (files k).length).sum ∧
        record.successes = results.flatten.countP (·.success) ∧
        record.files = (Kind.all.flatMap files).toFinset.card ∧
        record.parsers = files.kinds.length) := by
  obtain ⟨hregistry, hfits⟩ := ha.registry_reachable_and_fits
  have hkeyed := hregistry.keyed
  cases hmatched : Discovery.matchFiles s.tree.workingPath a.registry.descriptors root paths with
  | error fault => exact .inl ⟨fault, rfl, by simp [analyzeFiles, hmatched]⟩
  | ok matched =>
      obtain ⟨files, entries⟩ := matched
      have hnodup := Discovery.nodup_of_matchFiles hmatched
      have hall : ∀ k, files.has k → (a.registry.descriptor? k).isSome := by
        intro k hk
        obtain ⟨file, hfile⟩ := Parser.FilesByKind.has_iff.mp hk
        exact Discovery.descriptor_of_mem_matchFiles hkeyed hmatched hfile
      have hperm := map_key_candidates_perm s.machine a.settings.maxWorkers hkeyed hall
      have hpairwise := pairwise_planResults s.machine a.settings.maxWorkers hkeyed hall
      have hcovers := covers_ofList hperm hnodup hpairwise
      obtain ⟨hran, hrecorded⟩ := runFiles_ok s root hkeyed hall
      rw [hfits.record_eq] at hrecorded
      by_cases hsome : ∃ k file, file ∈ files k
      · obtain ⟨k, file, hfile⟩ := hsome
        obtain ⟨houtcome, hafter⟩ := analyzeFiles_of_mem hmatched hfile
        refine .inr ⟨files, entries, _, rfl, houtcome.trans hran, hcovers, fun hnone => ?_, fun _ => ?_⟩
        · rw [hnone k] at hfile
          cases hfile
        · exact ⟨_, hafter.trans hrecorded, length_of_perm hperm, rfl, size_of_perm hperm, rfl⟩
      · have hnone : ∀ k, files k = [] :=
          fun k => List.eq_nil_iff_forall_not_mem.mpr fun file hfile => hsome ⟨k, file, hfile⟩
        obtain ⟨houtcome, hafter⟩ := analyzeFiles_of_forall hmatched hnone
        rw [Parser.FilesByKind.kinds_eq_nil hnone] at hperm
        have hresults := List.map_eq_nil_iff.mp hperm.eq_nil
        rw [hresults] at hcovers
        exact .inr ⟨files, entries, ∅, rfl, houtcome, hcovers, fun _ => hafter, fun h => absurd h hsome⟩

/-- Two kinds read the same file, where the one that comes first hangs and the other one cannot be made. -/
theorem analyzeFiles_covers_failing :
    ∃ (a : Analyzer) (s : Surroundings) (results : Results) (record : Record), a.Reachable ∧
      (a.analyzeFiles s "/" ["web.xml"]).outcome = .ok results ∧ Text.ofString "/web.xml" ∈ results ∧
      (a.analyzeFiles s "/" ["web.xml"]).after.history.records = [record] ∧ record.attempts = 2 := by
  let ds : List Descriptor :=
    [{ kind := .struts, patterns := ["web.xml"] },
     { kind := .strutsAction, patterns := ["web.xml"], dependsOn := [.struts] }]
  obtain ⟨described, hdescribed⟩ : ∃ described, Registry.describeAll {} ds = .ok described := ⟨_, rfl⟩
  obtain ⟨registry, hregistry⟩ : ∃ registry,
      described.provide .struts (some (.makes (.script [.hung]))) = .ok registry := by
    cases hdescribed
    exact ⟨_, rfl⟩
  obtain ⟨a, ha⟩ : ∃ a, create registry {} = .ok a := ⟨_, rfl⟩
  have hcalled := Reachable.create ((Registry.Reachable.empty.describeAll hdescribed).provide hregistry) ha
  cases ha
  cases hdescribed
  cases hregistry
  let s : Surroundings := { tree := { root := [], workingDirectory := [] } }
  rcases analyzeFiles_covers hcalled s "/" ["web.xml"] with ⟨fault, hfault, -⟩ | h
  · cases hfault
  · obtain ⟨files, entries, results, hmatched, houtcome, hcovers, -, hrecord⟩ := h
    cases hmatched
    have hfile : Text.ofString "/web.xml" ∈ results := (hcovers.mem_iff _).mpr ⟨.struts, by decide +kernel⟩
    obtain ⟨record, hafter, hattempts, -⟩ := hrecord ⟨.struts, "/web.xml", by decide +kernel⟩
    refine ⟨_, s, results, record, hcalled, houtcome, hfile, by rw [hafter]; rfl, hattempts.trans ?_⟩
    decide +kernel

end Analyzer

end Run

end RuleFlow
