import RuleFlow.Log
import RuleFlow.Parser.Inventory
import RuleFlow.Parser.Registry
import RuleFlow.Path.Tree
import RuleFlow.Report.Basic
import RuleFlow.Run.Analyzer

/-!
# Options

What can be asked of a command. Arguments and configuration files both give a record of options in which everything may
be left out; `Options.merge` puts one record over another, and what is then still open takes its default where it is
used.
-/

namespace RuleFlow

open RuleFlow.Parser (Kind Limits Registry)

structure Options where
  root : Option Text := none
  /-- The directory that reports are written to. -/
  out : Option Text := none
  /-- The configuration file. -/
  config : Option Text := none
  /-- The file of traces. -/
  traces : Option Text := none
  formats : List Text := []
  ignoredPaths : List Text := []
  logLevel : Option Log.Level := none
  historyCapacity : Option Nat := none
  statisticsWindow : Option Nat := none
  maxWorkers : Option Nat := none
  limits : Kind → Option Limits := fun _ => none
  showHelp : Bool := false

namespace Options

/-! ## Lists in options -/

/-- The list with an item at its end that is not in it yet. -/
def addNew (items : List Text) (item : Text) : List Text := if items.contains item then items else items ++ [item]

/-- The formats that reports can be written in. -/
def supportedFormats : List Text := [Report.markdownFormat, Report.jsonFormat]

/-- A format that no report is written in. -/
structure UnsupportedFormat where
  format : Text

def UnsupportedFormat.message (e : UnsupportedFormat) : Text := "Unsupported format: " ++ e.format

/-- Adds a format, in any letter case. -/
def addFormat (formats : List Text) (item : Text) : Except UnsupportedFormat (List Text) :=
  let format := Text.lower item
  if supportedFormats.contains format then .ok (addNew formats format) else .error ⟨format⟩

/-- Adds the formats that a text lists. -/
def addFormats (formats : List Text) (listed : Text) : Except UnsupportedFormat (List Text) :=
  (Text.splitList Text.comma listed).foldlM addFormat formats

/-- Adds the paths that a text lists, each with single slashes. -/
def addPaths (paths : List Text) (listed : Text) : List Text :=
  ((Text.splitList Text.comma listed).map Path.generic).foldl addNew paths

/-! ## Layers -/

/-- The items of the upper layer, unless it has none. -/
def overList (lower upper : List Text) : List Text := if upper.isEmpty then lower else upper

/-- What the upper layer gives, and else what the lower one does. The limits of a kind go together. Help is shown as the
upper layer says. -/
def merge (lower upper : Options) : Options where
  root := upper.root <|> lower.root
  out := upper.out <|> lower.out
  config := upper.config <|> lower.config
  traces := upper.traces <|> lower.traces
  formats := overList lower.formats upper.formats
  ignoredPaths := overList lower.ignoredPaths upper.ignoredPaths
  logLevel := upper.logLevel <|> lower.logLevel
  historyCapacity := upper.historyCapacity <|> lower.historyCapacity
  statisticsWindow := upper.statisticsWindow <|> lower.statisticsWindow
  maxWorkers := upper.maxWorkers <|> lower.maxWorkers
  limits kind := upper.limits kind <|> lower.limits kind
  showHelp := upper.showHelp

/-! ## Use -/

/-- The level of the log. -/
def level (o : Options) : Log.Level := o.logLevel.getD .warn

/-- How an analyzer of the directory `root` works. Ignored paths are seen from there. -/
def settings (o : Options) (root : Text) : Run.Settings :=
  let defaults : Run.Settings := {}
  { historyCapacity := o.historyCapacity.getD defaults.historyCapacity
    statisticsWindow := o.statisticsWindow.getD defaults.statisticsWindow
    maxWorkers := o.maxWorkers.getD defaults.maxWorkers
    ignoredPaths := o.ignoredPaths.map (Path.append root) }

/-- Applies the limits of a kind, if there are any. -/
def limitKind (o : Options) (r : Registry) (kind : Kind) : Except Registry.Error Registry :=
  match o.limits kind with
  | none => .ok r
  | some limits =>
    match r.limit kind limits with
    | (limited, none) => .ok limited
    | (_, some error) => .error error

/-- The default descriptors under the given limits. -/
def limitedDefaults (o : Options) : Except Registry.Error Registry := Kind.all.foldlM o.limitKind .withDefaults

/-- A registry with the given limits and an inventory parser for every described kind. -/
def registry (o : Options) (tree : Tree) : Except Registry.Error Registry := do
  let limited ← o.limitedDefaults
  limited.described.foldlM (fun r kind => r.provide kind (some (.makes (Parser.Inventory.parser tree.read? kind.name))))
    limited

end Options

end RuleFlow
