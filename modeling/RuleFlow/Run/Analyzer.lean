import RuleFlow.Discovery
import RuleFlow.Plan
import RuleFlow.Run.History
import RuleFlow.Run.Phase

/-!
# Analyzers

An analyzer finds the files of its parsers, runs the parsers phase by phase and keeps a record of each run. A run
without any file leaves no record.
-/

namespace RuleFlow.Run

open RuleFlow.Parser (Registry FilesByKind)

/-- How an analyzer works. -/
structure Settings where
  historyCapacity : Nat := 100
  /-- The number of last runs that statistics are drawn from. -/
  statisticsWindow : Nat := 10
  /-- The number of pairs that run at once, zero for the default. -/
  maxWorkers : Nat := 0
  ignoredPaths : List Text := []

structure Analyzer where
  registry : Registry
  settings : Settings
  history : History

namespace Analyzer

/-- Why there is no analyzer with given settings. -/
inductive SettingsError where
  | history (error : History.Error)
  | noWindow

def SettingsError.message : SettingsError → Text
  | history e => e.message
  | noWindow => "Statistics window must be positive"

/-- An analyzer that has not run yet. -/
def create (registry : Registry) (settings : Settings) : Except SettingsError Analyzer :=
  match History.ofCapacity settings.historyCapacity with
  | .error e => .error (.history e)
  | .ok history => if settings.statisticsWindow = 0 then .error .noWindow else .ok { registry, settings, history }

/-- Why a run does not take place. -/
inductive Error where
  | discovery (error : Discovery.Error)
  | registry (error : Registry.Error)
  | file (fault : Tree.Fault)

def Error.message : Error → Text
  | discovery e => e.message
  | registry e => e.message
  | file fault => fault.message

/-- The time of a run and the machine and files that it finds. -/
structure Surroundings where
  tree : Tree
  machine : Machine := {}
  time : Instant := 0

/-- The files below a directory that the analyzer has parsers for, and what is reported. -/
def discover (a : Analyzer) (tree : Tree) (root : Text) : Except Error (FilesByKind × List Log.Entry) :=
  match Discovery.discover tree a.registry.descriptors a.settings.ignoredPaths root with
  | .ok found => .ok found
  | .error e => .error (.discovery e)

/-- The plan for files, and what is reported. -/
def plan (a : Analyzer) (files : FilesByKind) : Except Error (Plan × List Log.Entry) :=
  match Plan.forFiles files a.registry with
  | .ok p => .ok (p, p.entries)
  | .error e => .error (.registry e)

/-! ## Runs -/

/-- What is reported when a phase starts. -/
def phaseEntry (index count : Nat) (phase : Plan.Phase) : Log.Entry :=
  ⟨.info, "orchestrator.phase.start",
    [("phase", Text.ofNat index ++ "/" ++ Text.ofNat count), ("parsers", Text.ofNat phase.members.length)]⟩

/-- Runs the phases one after the other: all results, and what is reported. No kind is in two phases of a plan, so the
factory of a kind has been called as often when its phase starts as it had before the run. -/
def execute (a : Analyzer) (machine : Machine) (p : Plan) (files : FilesByKind) : Results × List Log.Entry :=
  let ran := p.phases.mapIdx fun i phase =>
    (phaseEntry (i + 1) p.phases.length phase,
      runPhase machine a.settings.maxWorkers a.registry phase.ordered files)
  ((ran.map (·.2.1)).foldl Results.merge ∅, ran.flatMap fun (started, _, entries) => started :: entries)

/-- What is reported when a record is kept. -/
def recordEntry (r : Record) : Log.Entry :=
  ⟨.debug, "orchestrator.history.record",
    [("attempts", Text.ofNat r.attempts), ("successes", Text.ofNat r.successes)]⟩

/-- What a call gives: the results or why there are none, what is reported either way, and the analyzer after it. -/
structure Answer where
  outcome : Except Error Results
  entries : List Log.Entry
  after : Analyzer

/-- Plans and runs the parsers for the files of a repository and keeps a record. -/
def runFiles (a : Analyzer) (s : Surroundings) (repository : Text) (files : FilesByKind) : Answer :=
  match a.plan files with
  | .error e => { outcome := .error e, entries := [], after := a }
  | .ok (p, planned) =>
    let (results, entries) := a.execute s.machine p files
    let record := Record.ofResults s.time repository p.phases.length p.size results
    { outcome := .ok results
      entries := planned ++ entries ++ [recordEntry record]
      after := { a with history := a.history.record record } }

/-- Runs the parsers on the files below a directory. -/
def analyze (a : Analyzer) (s : Surroundings) (root : Text) : Answer :=
  let start : Log.Entry := ⟨.info, "orchestrator.analysis.start", [("root", root)]⟩
  match a.discover s.tree root with
  | .error e => { outcome := .error e, entries := [start], after := a }
  | .ok (files, found) =>
    if files.kinds.isEmpty then
      { outcome := .ok ∅
        entries := start :: (found ++ [⟨.warn, "orchestrator.analysis.no_files", [("root", root)]⟩])
        after := a }
    else
      let run := a.runFiles s root files
      let complete :=
        match run.outcome with
        | .ok results =>
          [⟨.info, "orchestrator.analysis.complete", [("root", root), ("files", Text.ofNat results.size)]⟩]
        | .error _ => []
      { run with entries := start :: (found ++ run.entries ++ complete) }

/-- Runs the parsers on listed files, which are seen from `root`. -/
def analyzeFiles (a : Analyzer) (s : Surroundings) (root : Text) (files : List Text) : Answer :=
  let start : Log.Entry :=
    ⟨.info, "orchestrator.files.start", [("root", root), ("files", Text.ofNat files.length)]⟩
  match Discovery.matchFiles s.tree.workingPath a.registry.descriptors root files with
  | .error fault => { outcome := .error (.file fault), entries := [start], after := a }
  | .ok (matched, found) =>
    if matched.kinds.isEmpty then
      { outcome := .ok ∅
        entries := start :: (found ++ [⟨.warn, "orchestrator.files.no_match", [("root", root)]⟩])
        after := a }
    else
      let run := a.runFiles s root matched
      { run with entries := start :: (found ++ run.entries) }

/-- The summary of the last runs. -/
def statistics (a : Analyzer) : Statistics :=
  a.history.statistics a.settings.statisticsWindow a.registry.described

end Analyzer

end RuleFlow.Run
