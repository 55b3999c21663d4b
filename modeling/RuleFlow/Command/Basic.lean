import RuleFlow.Trace.Validation

/-!
# Commands

What the program can do, what it says about itself and which code it ends with.
-/

namespace RuleFlow

/-- What the program can do. -/
inductive Command where
  | analyze
  | plan
  | validate
  deriving DecidableEq

namespace Command

def all : List Command := [analyze, plan, validate]

def name : Command → Text
  | analyze => "analyze"
  | plan => "plan"
  | validate => "validate"

/-- The command that runs when none is named. -/
def default : Command := analyze

def ofName? (t : Text) : Option Command := all.find? (·.name == t)

/-! ## Exit codes -/

/-- How the program ends. -/
inductive Exit where
  | success
  | error
  /-- All traces were validated, and some trace is not valid. -/
  | invalidTraces
  deriving DecidableEq

def Exit.code : Exit → Nat
  | success => 0
  | error => 1
  | invalidTraces => 2

/-- How the program ends after these validations. -/
def Exit.ofValidations (vs : Validations) : Exit := if vs.allValid then .success else .invalidTraces

/-! ## Usage -/

/-- Lines of text, each ended by a line feed. -/
def lines (ls : List Text) : Text := ls.flatMap (· ++ "\n")

/-- The explanation of the flags that choose the log level, and of the one for help. -/
def commonUsage : List Text :=
  ["  --log-level <level>    Logging verbosity (error,warn,info,debug)",
   "  --verbose              Shortcut for --log-level info",
   "  --debug                Shortcut for --log-level debug",
   "  --help                 Show this message"]

/-- The explanation of the flag for formats. -/
def formatUsage : List Text :=
  ["  --format <list>        Comma-separated list of output formats",
   "                         (supported: markdown,json)"]

/-- The explanation of the flag for a configuration file. -/
def configUsage : List Text := ["  --config <file>        Optional YAML config file"]

/-- The explanation of the flag for ignored paths. -/
def ignoredUsage : List Text := ["  --ignored-paths <list> Comma-separated paths relative to --root"]

/-- How a command is used. -/
def usage : Command → Text
  | analyze =>
    lines
      ((["Usage: flowtrace analyze --root <path> [options]",
         "Options:",
         "  --root <path>          Root directory of the repository to analyze",
         "  --out <path>           Directory for report outputs (default: analysis root)"] : List Text) ++
       formatUsage ++ configUsage ++ ignoredUsage ++
       (["                         to skip during discovery"] : List Text) ++
       commonUsage)
  | plan =>
    lines
      ((["Usage: flowtrace plan --root <path> [options]",
         "Options:",
         "  --root <path>          Root directory of the repository"] : List Text) ++
       configUsage ++ ignoredUsage ++ commonUsage)
  | validate =>
    lines
      ((["Usage: flowtrace validate --traces <file.yaml> [options]",
         "Options:",
         "  --traces <file>        YAML file with a 'traces' list",
         "  --out <path>           Directory for report outputs (default: directory of the trace file)"] : List Text) ++
       formatUsage ++ configUsage ++ commonUsage)

/-- How the program is used. -/
def programUsage : Text :=
  lines
    ["Usage: flowtrace <command> [options]",
     "",
     "Commands:",
     "  analyze   Discover files, run parsers phase by phase and write reports",
     "            (default if no command is given).",
     "  plan      Print discovered file counts and the execution plan.",
     "  validate  Validate business rule traces loaded from YAML.",
     "",
     "Run 'flowtrace <command> --help' for command options."]

end Command

end RuleFlow
