import RuleFlow.Proofs.Run.Analyzer

/-!
# Calls one after the other

A call that finds files and brings results for them leaves a record (`record?`); any other call leaves the analyzer as
it was. So after any calls the history holds the last of their records, as many as it has room for, and statistics are
drawn from the last of these.
-/

namespace RuleFlow.Run

open RuleFlow.Parser (Registry FilesByKind)

/-! ## The last records -/

namespace History

variable {α : Type}

theorem lastOf_suffix (count : Nat) (items : List α) : lastOf count items <:+ items :=
  List.drop_suffix _ _

theorem lastOf_nil (count : Nat) : lastOf count ([] : List α) = [] :=
  List.drop_nil

/-- An item that was dropped earlier would not be among the last ones later. -/
theorem lastOf_append_singleton (count : Nat) (items : List α) (x : α) :
    lastOf count (lastOf count items ++ [x]) = lastOf count (items ++ [x]) := by
  have hdrop : items.drop (items.length - count) ++ [x] = (items ++ [x]).drop (items.length - count) :=
    (List.drop_append_of_le_length (Nat.sub_le _ _)).symm
  simp only [lastOf]
  rw [hdrop, List.drop_drop]
  congr 1
  simp only [List.length_drop, List.length_append, List.length_singleton]
  omega

end History

theorem total_eq_sum (number : Record → Nat) (records : List Record) :
    total number records = (records.map number).sum := by
  rw [total, List.sum_eq_foldl_nat, List.foldl_map]

namespace Analyzer

/-! ## One call -/

/-- A call with all that it is given. -/
inductive Call where
  | analyze (s : Surroundings) (root : Text)
  | analyzeFiles (s : Surroundings) (root : Text) (paths : List Text)

namespace Call

def surroundings : Call → Surroundings
  | analyze s _ => s
  | analyzeFiles s _ _ => s

def root : Call → Text
  | analyze _ root => root
  | analyzeFiles _ root _ => root

end Call

def call (a : Analyzer) : Call → Answer
  | .analyze s root => a.analyze s root
  | .analyzeFiles s root paths => a.analyzeFiles s root paths

/-- The files of a call by kind. -/
def filesOf (a : Analyzer) : Call → Except Error FilesByKind
  | .analyze s root => (a.discover s.tree root).map (·.1)
  | .analyzeFiles s root paths =>
    ((Discovery.matchFiles s.tree.workingPath a.registry.descriptors root paths).map (·.1)).mapError .file

/-- The record that a call leaves: none without a file or without a plan. -/
def record? (a : Analyzer) (c : Call) : Option Record :=
  match a.filesOf c with
  | .error _ => none
  | .ok files =>
    if files.kinds.isEmpty then none
    else
      match a.plan files with
      | .error _ => none
      | .ok (p, _) =>
        some (Record.ofResults c.surroundings.time c.root p.phases.length p.size
          (a.execute c.surroundings.machine p files).1)

variable {a : Analyzer} {c : Call} {files : FilesByKind}

theorem isEmpty_kinds_iff : files.kinds.isEmpty ↔ ∀ k, files k = [] := by
  rw [List.isEmpty_iff]
  refine ⟨fun h k => ?_, Parser.FilesByKind.kinds_eq_nil⟩
  rw [List.eq_nil_iff_forall_not_mem]
  intro file hfile
  rw [List.eq_nil_iff_forall_not_mem] at h
  exact h k (Parser.FilesByKind.mem_kinds.mpr ⟨file, hfile⟩)

theorem call_of_filesOf_error {e : Error} (h : a.filesOf c = .error e) :
    (a.call c).outcome = .error e ∧ (a.call c).after = a := by
  cases c with
  | analyze s root =>
      simp only [filesOf] at h
      cases hfound : a.discover s.tree root with
      | error e' =>
          rw [hfound] at h
          cases h
          simp [call, analyze, hfound]
      | ok found => rw [hfound] at h; cases h
  | analyzeFiles s root paths =>
      simp only [filesOf] at h
      cases hmatched : Discovery.matchFiles s.tree.workingPath a.registry.descriptors root paths with
      | error fault =>
          rw [hmatched] at h
          cases h
          simp [call, analyzeFiles, hmatched]
      | ok matched => rw [hmatched] at h; cases h

/-- A call that finds files runs the parsers on them, if there is any. -/
theorem call_of_filesOf_ok (h : a.filesOf c = .ok files) :
    ((a.call c).outcome = if files.kinds.isEmpty then .ok ∅ else (a.runFiles c.surroundings c.root files).outcome) ∧
      (a.call c).after = if files.kinds.isEmpty then a else (a.runFiles c.surroundings c.root files).after := by
  cases c with
  | analyze s root =>
      simp only [filesOf] at h
      cases hfound : a.discover s.tree root with
      | error e => rw [hfound] at h; cases h
      | ok found =>
          rw [hfound] at h
          cases h
          simp only [call, analyze, hfound, Call.surroundings, Call.root]
          constructor <;> split <;> rfl
  | analyzeFiles s root paths =>
      simp only [filesOf] at h
      cases hmatched : Discovery.matchFiles s.tree.workingPath a.registry.descriptors root paths with
      | error fault => rw [hmatched] at h; cases h
      | ok matched =>
          rw [hmatched] at h
          cases h
          simp only [call, analyzeFiles, hmatched, Call.surroundings, Call.root]
          constructor <;> split <;> rfl

/-- What a call records: nothing if it fails or finds no file, and then nothing changes, else what it brings. -/
inductive Records (a : Analyzer) (c : Call) : Option Record → Prop
  | failed {e : Error} : (a.call c).outcome = .error e → (a.call c).after = a → Records a c none
  | noFile {files : FilesByKind} : a.filesOf c = .ok files → (∀ k, files k = []) → (a.call c).outcome = .ok ∅ →
      (a.call c).after = a → Records a c none
  | results {files : FilesByKind} {results : Results} {r : Record} : a.filesOf c = .ok files → ¬ (∀ k, files k = []) →
      (a.call c).outcome = .ok results → r.files = results.size → r.attempts = results.flatten.length →
      r.successes = results.flatten.countP (·.success) → (a.call c).after = { a with history := a.history.record r } →
      Records a c (some r)

theorem records_record? (a : Analyzer) (c : Call) : a.Records c (a.record? c) := by
  cases hfiles : a.filesOf c with
  | error e =>
      obtain ⟨houtcome, hafter⟩ := call_of_filesOf_error hfiles
      have hrecord : a.record? c = none := by simp [record?, hfiles]
      exact hrecord ▸ .failed houtcome hafter
  | ok files =>
      obtain ⟨houtcome, hafter⟩ := call_of_filesOf_ok hfiles
      by_cases hnone : ∀ k, files k = []
      · have hempty := isEmpty_kinds_iff.mpr hnone
        have hrecord : a.record? c = none := by simp [record?, hfiles, hempty]
        rw [if_pos hempty] at houtcome hafter
        exact hrecord ▸ .noFile hfiles hnone houtcome hafter
      · have hsome := mt isEmpty_kinds_iff.mp hnone
        rw [if_neg hsome] at houtcome hafter
        cases hplan : a.plan files with
        | error e =>
            have hrecord : a.record? c = none := by simp [record?, hfiles, hplan]
            simp only [runFiles, hplan] at houtcome hafter
            exact hrecord ▸ .failed houtcome hafter
        | ok planned =>
            have hrecord : a.record? c = some (Record.ofResults c.surroundings.time c.root planned.1.phases.length
                planned.1.size (a.execute c.surroundings.machine planned.1 files).1) := by
              simp [record?, hfiles, hsome, hplan]
            simp only [runFiles, hplan] at houtcome hafter
            exact hrecord ▸ .results hfiles hnone houtcome rfl rfl rfl hafter

theorem call_after (a : Analyzer) (c : Call) :
    (a.call c).after = (a.record? c).elim a fun r => { a with history := a.history.record r } := by
  have hrecords := a.records_record? c
  generalize a.record? c = record at hrecords
  cases hrecords with
  | failed _ hafter => exact hafter
  | noFile _ _ _ hafter => exact hafter
  | results _ _ _ _ _ _ hafter => exact hafter

/-! ## Many calls -/

/-- The analyzer after calls that follow one another. -/
def callAll (a : Analyzer) (calls : List Call) : Analyzer := calls.foldl (fun a c => (a.call c).after) a

/-- What was recorded earlier makes no difference to the records of calls. -/
theorem record?_history (a : Analyzer) (history : History) : ({ a with history } : Analyzer).record? = a.record? := by
  funext c
  cases c <;> rfl

theorem record?_after (a : Analyzer) (c : Call) : (a.call c).after.record? = a.record? := by
  rw [call_after]
  cases a.record? c with
  | none => rfl
  | some r => exact a.record?_history _

theorem record?_callAll (a : Analyzer) (calls : List Call) : (a.callAll calls).record? = a.record? := by
  induction calls generalizing a with
  | nil => rfl
  | cons c calls ih => exact (ih (a.call c).after).trans (a.record?_after c)

theorem callAll_eq {earlier : List Record} (calls : List Call)
    (h : a.history.records = History.lastOf a.history.capacity earlier) :
    a.callAll calls = { a with
      history.records := History.lastOf a.history.capacity (earlier ++ calls.filterMap a.record?) } := by
  -- `earlier` are all records so far, also those that the history has dropped
  induction calls generalizing a earlier with
  | nil => simp [callAll, ← h]
  | cons c calls ih =>
      have hcons : a.callAll (c :: calls) = (a.call c).after.callAll calls := rfl
      have hsame := a.record?_after c
      rw [hcons, List.filterMap_cons]
      rw [call_after] at hsame ⊢
      cases hrecord : a.record? c with
      | none => exact ih h
      | some r =>
          rw [hrecord] at hsame
          have hkept : (a.history.record r).records = History.lastOf a.history.capacity (earlier ++ [r]) := by
            rw [History.record, h, History.lastOf_append_singleton]
          have hrest := ih (a := { a with history := a.history.record r }) hkept
          rw [Option.elim_some] at hsame ⊢
          rw [hsame, List.append_assoc] at hrest
          exact hrest

theorem create_of_pos (registry : Registry) {settings : Settings} (hcapacity : 0 < settings.historyCapacity)
    (hwindow : 0 < settings.statisticsWindow) :
    create registry settings = .ok { registry, settings, history := { capacity := settings.historyCapacity } } := by
  have hcapacity' := Nat.ne_of_gt hcapacity
  have hwindow' := Nat.ne_of_gt hwindow
  simp [create, History.ofCapacity, hcapacity', hwindow']

/-- Of an analyzer with room for a record and with a window the history holds, after any calls, the last of the records
that the calls leave. Its statistics sum over those of them that are in the window, and the success rate is that of all
their attempts together. A call leaves no record, and then the analyzer as it was, exactly if it fails or finds no file.
-/
theorem statistics_callAll (registry : Registry) (settings : Settings) (hcapacity : 0 < settings.historyCapacity)
    (hwindow : 0 < settings.statisticsWindow) (calls : List Call) :
    ∃ a, create registry settings = .ok a ∧
      (∀ earlier c, (a.callAll earlier).Records c (a.record? c)) ∧
      let recorded := calls.filterMap a.record?
      let held := (a.callAll calls).history.records
      let statistics := (a.callAll calls).statistics
      held <:+ recorded ∧ held.length = min recorded.length settings.historyCapacity ∧
      statistics.totalExecutions = min recorded.length settings.historyCapacity ∧
      (∃ recent, recent <:+ recorded ∧
        recent.length = min (min recorded.length settings.historyCapacity) settings.statisticsWindow ∧
        statistics.totalFiles = (recent.map (·.files)).sum ∧
        statistics.averageSuccessRate = ratio (recent.map (·.successes)).sum (recent.map (·.attempts)).sum) ∧
      (recorded = [] → statistics.averageSuccessRate = 0 ∧ statistics.totalFiles = 0) := by
  refine ⟨_, create_of_pos registry hcapacity hwindow, fun earlier c => ?_, ?_⟩
  · rw [← record?_callAll _ earlier]
    exact records_record? _ c
  · intro recorded held statistics
    have hafter := callAll_eq (a := ⟨registry, settings, { capacity := settings.historyCapacity }⟩) calls
      (History.lastOf_nil _).symm
    rw [List.nil_append] at hafter
    have hheld : held = History.lastOf settings.historyCapacity recorded := by simp only [held, hafter, recorded]
    have hstatistics : statistics = History.statistics ⟨settings.historyCapacity, held⟩ settings.statisticsWindow
        registry.described := by simp only [statistics, hheld, hafter, Analyzer.statistics, recorded]
    have hsuffix : held <:+ recorded := hheld ▸ History.lastOf_suffix _ _
    have hlength : held.length = min recorded.length settings.historyCapacity := by
      rw [hheld, History.length_lastOf, Nat.min_comm]
    have htotal : statistics.totalExecutions = held.length := by
      rw [hstatistics]
      rfl
    refine ⟨hsuffix, hlength, htotal.trans hlength, ⟨History.lastOf settings.statisticsWindow held, ?_, ?_, ?_, ?_⟩, ?_⟩
    · exact (History.lastOf_suffix _ _).trans hsuffix
    · rw [History.length_lastOf, hlength, Nat.min_comm]
    · rw [hstatistics, ← total_eq_sum]
      rfl
    · rw [hstatistics, ← total_eq_sum, ← total_eq_sum]
      rfl
    · intro hnone
      rw [hnone] at hsuffix
      rw [hstatistics, List.suffix_nil.mp hsuffix]
      simp [History.statistics, History.recent, History.lastOf_nil, total, ratio]

/-- A run in which one file fails and one in which three files succeed: three of four attempts, while the rates of the
runs have the mean one half. -/
theorem statistics_callAll_weighted :
    ∃ (registry : Registry) (settings : Settings) (calls : List Call) (a : Analyzer), create registry settings = .ok a ∧
      0 < settings.historyCapacity ∧ 0 < settings.statisticsWindow ∧
      (a.callAll calls).history.records.map (fun r => (r.successes, r.attempts)) = [(0, 1), (3, 3)] ∧
      (a.callAll calls).statistics.averageSuccessRate = 0.75 := by
  let parser : Parser :=
    { outcome := fun file _ => if file = Text.ofString "/a" then .failed .unexplained else .found ∅ }
  let registry : Registry :=
    { descriptor? := fun k => if k = .java then some { kind := .java, patterns := ["a", "b", "c", "d"] } else none
      factory? := fun k => if k = .java then some (.makes parser) else none }
  let s : Surroundings := { tree := { root := [], workingDirectory := [] } }
  let calls : List Call := [.analyzeFiles s "/" ["a"], .analyzeFiles s "/" ["e"], .analyzeFiles s "/" ["b", "c", "d"]]
  obtain ⟨a, ha, -, hsuffix, hlength, -, ⟨recent, hrecent, hwindow, -, hrate⟩, -⟩ :=
    statistics_callAll registry {} (by decide) (by decide) calls
  cases ha
  refine ⟨registry, {}, calls, _, rfl, by decide, by decide, ?_, ?_⟩
  · rw [hsuffix.eq_of_length (hlength.trans (by decide +kernel))]
    decide +kernel
  · rw [hrate, hrecent.eq_of_length (hwindow.trans (by decide +kernel))]
    decide +kernel

end Analyzer

end RuleFlow.Run
