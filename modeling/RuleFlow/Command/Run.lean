import RuleFlow.Options.Arguments
import RuleFlow.Options.Config
import RuleFlow.Report.Analysis
import RuleFlow.Report.Validation
import RuleFlow.Trace.Reader
import RuleFlow.Trace.Validator

/-!
# Running commands

`Command.run` takes the arguments of the program and the files around it, and gives everything that the program leaves
behind: how it ends, what it prints, what it reports to its log and which files it writes. A command that cannot go on
says why; what it printed, reported and wrote until then stays.
-/

namespace RuleFlow.Command

open RuleFlow.Run (Analyzer)
open RuleFlow.Run.Analyzer (Surroundings)

/-! ## Errors -/

/-- Why a command cannot go on. -/
inductive Error where
  | unknownCommand (name : Text)
  | arguments (error : Arguments.Error)
  | config (error : Config.LoadError)
  | rootMissing
  | tracesMissing
  | fault (fault : Tree.Fault)
  | registry (error : Parser.Registry.Error)
  | settings (error : Analyzer.SettingsError)
  | analysis (error : Analyzer.Error)
  | traces (error : Trace.LoadError)
  | log (failure : Failure)
  | unwritable (path : Text)

def Error.message : Error → Text
  | unknownCommand name => "Unknown command: " ++ name
  | arguments e => e.message
  | config e => e.message
  | rootMissing => "--root is required (or set in config file)"
  | tracesMissing => "--traces is required (or set in config file)"
  | fault f => f.message
  | registry e => e.message
  | settings e => e.message
  | analysis e => e.message
  | traces e => e.message
  | log f => f.message
  | unwritable path => "Failed to open output file: " ++ path

/-! ## Endings -/

/-- What a command leaves behind. -/
structure Ending where
  outcome : Except Error Exit
  /-- What is printed before the outcome is known. -/
  printed : Text := []
  level : Log.Level := .warn
  entries : List Log.Entry := []
  /-- The files that are written, with their contents and in order. -/
  files : List (Text × Text) := []
  /-- All files afterwards. -/
  tree : Tree

namespace Ending

def exit (e : Ending) : Exit :=
  match e.outcome with
  | .ok exit => exit
  | .error _ => .error

/-- The standard output. Whoever makes a mistake is told how the program is used. -/
def output (e : Ending) : Text :=
  match e.outcome with
  | .ok _ => e.printed
  | .error _ => e.printed ++ programUsage

/-- The line about an error. Its message is shown up to its first zero byte. -/
def errorLine (message : Text) : Text := "Error: " ++ Text.untilZero message ++ "\n"

/-- The standard error output. -/
def errorOutput (e : Ending) : Text :=
  match e.outcome with
  | .ok _ => []
  | .error error => errorLine error.message

/-- What is written to the log. -/
def log (e : Ending) (stamp : Text) : Text := Log.writeAll e.level stamp e.entries

end Ending

/-! ## Reports -/

/-- What comes of writing files. -/
structure Delivery where
  tree : Tree
  files : List (Text × Text) := []
  error? : Option Error := none

/-- Writes a text to a file, unless it is empty. -/
def Delivery.write (d : Delivery) (path content : Text) : Delivery :=
  if d.error?.isSome || content.isEmpty then d
  else
    match d.tree.write path content with
    | .ok tree => { d with tree, files := d.files ++ [(path, content)] }
    | .error _ => { d with error? := some (.unwritable path) }

/-- Writes the texts of a report to files of a directory, which is made if it is not there. -/
def deliver (tree : Tree) (directory name : Text) (report : Report) : Delivery :=
  match tree.makeDirectories directory with
  | .error f => { tree, error? := some (.fault f) }
  | .ok tree =>
    (({ tree } : Delivery).write (Path.append directory (name ++ ".md")) report.markdown).write
      (Path.append directory (name ++ ".json")) report.json

/-- The name of the files of an analysis report. -/
def analysisName : Text := "flowtrace_analysis"

/-- The name of the files of a validation report. -/
def validationName : Text := "flowtrace_validation"

/-- The ending of a command that is done once its report is written. -/
def Ending.ofDelivery (d : Delivery) (o : Options) (entries : List Log.Entry) (printed : Text) (exit : Exit) :
    Ending :=
  match d.error? with
  | some error => { outcome := .error error, level := o.level, entries, files := d.files, tree := d.tree }
  | none => { outcome := .ok exit, printed, level := o.level, entries, files := d.files, tree := d.tree }

/-! ## Analyses and plans -/

/-- The directory that the options ask for. -/
def resolveRoot (tree : Tree) (o : Options) : Except Error Text :=
  match o.root with
  | none => .error .rootMissing
  | some root =>
    match tree.weaklyCanonical root with
    | .ok path => .ok path
    | .error f => .error (.fault f)

/-- The analyzer that the options ask for. -/
def makeAnalyzer (tree : Tree) (o : Options) (root : Text) : Except Error Analyzer :=
  match o.registry tree with
  | .error e => .error (.registry e)
  | .ok registry =>
    match Analyzer.create registry (o.settings root) with
    | .error e => .error (.settings e)
    | .ok a => .ok a

/-- The analyzer that the options ask for, and the directory that it is for. -/
def prepareAnalyzer (tree : Tree) (o : Options) : Except Error (Analyzer × Text) := do
  let root ← resolveRoot tree o
  return (← makeAnalyzer tree o root, root)

/-- Analyzes a directory and writes a report. -/
def runAnalyze (s : Surroundings) (o : Options) : Ending :=
  match prepareAnalyzer s.tree o with
  | .error e => { outcome := .error e, tree := s.tree }
  | .ok (a, root) =>
    let run := a.analyze s root
    match run.outcome with
    | .error e => { outcome := .error (.analysis e), level := o.level, entries := run.entries, tree := s.tree }
    | .ok results =>
      let input : Report.AnalysisInput := { time := s.time, root, results, statistics := run.after.statistics }
      let directory := o.out.getD root
      .ofDelivery (deliver s.tree directory analysisName (input.render o.formats)) o run.entries
        ("Analyzed " ++ Text.ofNat results.size ++ " files; reports written to " ++ directory ++ "\n") .success

/-- The line about a kind of files. -/
def kindLine (kind : Parser.Kind) (files : List Text) : Text :=
  "  " ++ kind.name ++ ": " ++ Text.ofNat files.length ++ "\n"

/-- The line about a phase, the first one numbered 1. -/
def phaseLine (index : Nat) (phase : Plan.Phase) : Text :=
  "  Phase " ++ Text.ofNat index ++ ": " ++
    Text.join ", " (phase.ordered.map fun d => d.kind.name ++ " (" ++ d.priority.name ++ ")") ++ "\n"

/-- The text about files. -/
def filesText (files : Parser.FilesByKind) : Text :=
  "Discovered files:\n" ++ files.toList.flatMap fun (kind, fs) => kindLine kind fs

/-- The text about a plan. -/
def planText (p : Plan) : Text :=
  "Execution plan (" ++ Text.ofNat p.size ++ " parsers):\n" ++
    (p.phases.mapIdx fun i phase => phaseLine (i + 1) phase).flatten

/-- Prints the files of a directory and the plan for them. -/
def runPlan (s : Surroundings) (o : Options) : Ending :=
  match prepareAnalyzer s.tree o with
  | .error e => { outcome := .error e, tree := s.tree }
  | .ok (a, root) =>
    match a.discover s.tree root with
    | .error e => { outcome := .error (.analysis e), level := o.level, tree := s.tree }
    | .ok (files, entries) =>
      if files.kinds.isEmpty then
        { outcome := .ok .success
          printed := "No matching files found under " ++ root ++ "\n"
          level := o.level, entries, tree := s.tree }
      else
        match a.plan files with
        | .error e =>
          { outcome := .error (.analysis e), printed := filesText files, level := o.level, entries, tree := s.tree }
        | .ok (p, planned) =>
          { outcome := .ok .success
            printed := filesText files ++ planText p
            level := o.level, entries := entries ++ planned, tree := s.tree }

/-! ## Validations -/

/-- The file of traces that the options ask for, and its traces. -/
def loadTraces (tree : Tree) (o : Options) : Except Error (Text × List Trace) :=
  match o.traces with
  | none => .error .tracesMissing
  | some file =>
    match tree.weaklyCanonical file with
    | .error f => .error (.fault f)
    | .ok path =>
      match Trace.loadFile tree path with
      | .error e => .error (.traces e)
      | .ok ts => .ok (path, ts)

/-- The text about validations. -/
def validationText (v : Validation.Statistics) : Text :=
  "Validated " ++ Text.ofNat v.total ++ " traces: " ++ Text.ofNat v.valid ++ " valid, " ++ Text.ofNat v.invalid ++
    " invalid\n"

/-- Validates the traces of a file and writes a report. -/
def runValidate (s : Surroundings) (o : Options) : Ending :=
  match loadTraces s.tree o with
  | .error e => { outcome := .error e, tree := s.tree }
  | .ok (path, traces) =>
    let validator : Validator := {}
    let entries := validator.allEntries .open traces
    match validator.validateAll .open s.time traces with
    | .error f => { outcome := .error (.log f), level := o.level, entries, tree := s.tree }
    | .ok validations =>
      let statistics := Validation.Statistics.ofValidations validations
      let input : Report.ValidationInput := { time := s.time, traces, validations, statistics }
      let directory := o.out.getD (Path.parent path)
      .ofDelivery (deliver s.tree directory validationName (input.render o.formats)) o entries
        (validationText statistics) (.ofValidations validations)

/-! ## The program -/

/-- Runs a command with its options. -/
def runWith (command : Command) (s : Surroundings) (o : Options) : Ending :=
  match command with
  | analyze => runAnalyze s o
  | plan => runPlan s o
  | validate => runValidate s o

/-- Runs a command with its arguments. -/
def runArguments (command : Command) (s : Surroundings) (arguments : List Text) : Ending :=
  match Arguments.parse command arguments with
  | .error e => { outcome := .error (.arguments e), tree := s.tree }
  | .ok given =>
    if given.showHelp then { outcome := .ok .success, printed := command.usage, tree := s.tree }
    else
      match Config.resolve s.tree given with
      | .error e => { outcome := .error (.config e), tree := s.tree }
      | .ok o => command.runWith s o

/-- The argument is a flag and not the name of a command. -/
def isFlag (argument : Text) : Bool := argument.head? == some 45

/-- The command that the arguments of the program name first, and its own arguments. -/
def select (arguments : List Text) : Except Error (Command × List Text) :=
  match arguments with
  | [] => .ok (default, [])
  | first :: rest =>
    if isFlag first then .ok (default, first :: rest)
    else (ofName? first).elim (.error (.unknownCommand first)) fun command => .ok (command, rest)

/-- The flags that ask for the usage of the program when they come first. -/
def helpFlags : List Text := ["--help", "-h"]

/-- Runs the program with its arguments. -/
def run (s : Surroundings) (arguments : List Text) : Ending :=
  if arguments.head?.any helpFlags.contains then { outcome := .ok .success, printed := programUsage, tree := s.tree }
  else
    match select arguments with
    | .error e => { outcome := .error e, tree := s.tree }
    | .ok (command, rest) => command.runArguments s rest

end RuleFlow.Command
