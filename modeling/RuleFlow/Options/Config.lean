import RuleFlow.Document
import RuleFlow.Options.Basic

/-!
# Options from configuration files

A configuration is a mapping from the keys of `Key` to values. Keys may be written in any letter case, with hyphens for
underscores and, some of them, under a second name (`normalizeKey`). Entries take effect in the order of the document,
and the first one that is wrong refuses the whole.
-/

namespace RuleFlow.Config

open RuleFlow.Document (Reader)
open RuleFlow.Parser (Kind Limits)

/-! ## Keys -/

/-- Second names of keys. -/
def aliases : List (Text × Text) :=
  [("output", "out"), ("output_directory", "out"), ("format", "formats"), ("traces_file", "traces")]

/-- An underscore for a hyphen, any other byte itself. -/
def underscoreByte (b : UInt8) : UInt8 := if b == 45 then 95 else b

/-- The key as it is looked up: trimmed, in small letters, with underscores, and under its first name. -/
def normalizeKey (key : Text) : Text :=
  let plain := (Text.lower (Text.trim key)).map underscoreByte
  (aliases.lookup plain).getD plain

/-- What can be configured. -/
inductive Key where
  | root
  | out
  | formats
  | logLevel
  | ignoredPaths
  | traces
  | historyCapacity
  | statisticsWindow
  | maxWorkers
  | parsers
  deriving DecidableEq

namespace Key

def all : List Key :=
  [root, out, formats, logLevel, ignoredPaths, traces, historyCapacity, statisticsWindow, maxWorkers, parsers]

def name : Key → Text
  | root => "root"
  | out => "out"
  | formats => "formats"
  | logLevel => "log_level"
  | ignoredPaths => "ignored_paths"
  | traces => "traces"
  | historyCapacity => "history_capacity"
  | statisticsWindow => "statistics_window"
  | maxWorkers => "max_workers"
  | parsers => "parsers"

/-- The key that a text stands for. -/
def ofText? (t : Text) : Option Key := all.find? (·.name == normalizeKey t)

end Key

/-! ## Errors -/

/-- What is wrong with a configuration. -/
inductive Error where
  | rootNotMapping
  | unknownKey (written : Text)
  | notText (key : Key)
  | notPath (key : Key)
  | noPathEntry (key : Key)
  | notList (key : Key)
  | itemNotText (key : Key)
  | notInteger (key : Key)
  | notPositive (key : Key)
  | parsersNotMapping
  | settingsNotMapping (parser : Text)
  | unknownSetting (parser setting : Text)
  | timeoutNotNumber (parser : Text)
  | retriesNotInteger (parser : Text)
  | format (error : Options.UnsupportedFormat)
  | level (error : Log.UnknownLevel)
  | kind (error : Parser.UnknownKind)

def Error.message : Error → Text
  | rootNotMapping => "Config file must contain a mapping at the root"
  | unknownKey written =>
    "Unknown config key: " ++ written ++ ". Supported keys: " ++ Text.join ", " (Key.all.map Key.name)
  | notText key => "Config key '" ++ key.name ++ "' must be a string or path value"
  | notPath key => "Config key '" ++ key.name ++ "' must be a string or mapping"
  | noPathEntry key => "Config key '" ++ key.name ++ "' map must contain 'path', 'dir', or 'directory'"
  | notList key => "Config key '" ++ key.name ++ "' must be a string or list of strings"
  | itemNotText key => "Config key '" ++ key.name ++ "' must be a list of strings"
  | notInteger key => "Config key '" ++ key.name ++ "' must be an integer"
  | notPositive key => "Config key '" ++ key.name ++ "' must be positive"
  | parsersNotMapping => "Config key 'parsers' must map parser names to settings"
  | settingsNotMapping parser => "Config for parser '" ++ parser ++ "' must be a mapping"
  | unknownSetting parser setting =>
    "Unknown setting '" ++ setting ++ "' for parser '" ++ parser ++ "'. Supported: timeout_seconds, max_retries"
  | timeoutNotNumber parser => "Parser '" ++ parser ++ "' timeout_seconds must be a number"
  | retriesNotInteger parser => "Parser '" ++ parser ++ "' max_retries must be an integer"
  | format e => e.message
  | level e => e.message
  | kind e => e.message

/-! ## Values -/

/-- The text of a scalar. -/
def readText (key : Key) (value : Document) : Except Error Text :=
  value.text?.elim (.error (.notText key)) .ok

/-- The entries that may hold a path, the first one that is there being taken. -/
def pathEntries : List Text := ["path", "dir", "directory"]

/-- A path: a text, or a mapping that has one. -/
def readPath (key : Key) (value : Document) : Except Error Text :=
  match value with
  | .scalar t => .ok t
  | .mapping _ =>
    match pathEntries.findSome? value.get? with
    | some entry => readText key entry
    | none => .error (.noPathEntry key)
  | _ => .error (.notPath key)

/-- The items of a list; a single text is a list of one. -/
def readItems (key : Key) (value : Document) : Except Error (List Document) :=
  match value with
  | .sequence items => .ok items
  | .scalar t => .ok [.scalar t]
  | _ => .error (.notList key)

/-- Adds the texts of a list to a list one after the other. -/
def addTexts (key : Key) (value : Document) (add : List Text → Text → Except Error (List Text)) :
    Except Error (List Text) := do
  let items ← readItems key value
  items.foldlM (fun target item => do add target (← item.text?.elim (.error (.itemNotText key)) .ok)) []

/-- A positive number of 64 bits. -/
def readCount (reader : Reader) (key : Key) (value : Document) : Except Error Nat :=
  match value.text?.bind (reader.int? 64) with
  | none => .error (.notInteger key)
  | some n => if n ≤ 0 then .error (.notPositive key) else .ok n.toNat

/-! ## Limits of parsers -/

/-- The least number of 64 bits, which stands for all numbers beyond 64 bits and for no number. -/
def outOfRange : Int := -9223372036854775808

/-- Whole milliseconds of a number of seconds, rounded toward zero. -/
def milliseconds (seconds : Float) : Int :=
  match (Binary.ofFloat (seconds * 1000)).truncate with
  | some n => if outOfRange ≤ n ∧ n < -outOfRange then n else outOfRange
  | none => outOfRange

/-- Takes one setting of a parser into its limits. -/
def applySetting (reader : Reader) (parser : Text) (limits : Limits) (entry : Text × Document) :
    Except Error Limits :=
  let setting := normalizeKey entry.1
  if setting = Text.ofString "timeout_seconds" then
    match entry.2.text?.bind reader.float? with
    | some seconds => .ok { limits with timeout := some (milliseconds seconds) }
    | none => .error (.timeoutNotNumber parser)
  else if setting = Text.ofString "max_retries" then
    match entry.2.text?.bind (reader.int? 32) with
    | some n => .ok { limits with maxRetries := some n }
    | none => .error (.retriesNotInteger parser)
  else .error (.unknownSetting parser setting)

/-- The limits of the settings of a parser. -/
def readLimits (reader : Reader) (parser : Text) (settings : Document) : Except Error Limits :=
  match settings with
  | .mapping entries => entries.foldlM (applySetting reader parser) {}
  | _ => .error (.settingsNotMapping parser)

/-- The name of a parser as it is looked up. -/
def parserName (written : Text) : Text := Text.lower (Text.trim written)

/-- Sets the limits of one kind of parser. -/
def applyParser (reader : Reader) (o : Options) (entry : Text × Document) : Except Error Options :=
  let parser := parserName entry.1
  match Kind.read parser with
  | .error e => .error (.kind e)
  | .ok kind => do
    let limits ← readLimits reader parser entry.2
    return { o with limits := Kind.update o.limits kind (some limits) }

/-- Sets the limits of kinds of parsers. -/
def applyParsers (reader : Reader) (o : Options) (value : Document) : Except Error Options :=
  match value with
  | .mapping entries => entries.foldlM (applyParser reader) o
  | _ => .error .parsersNotMapping

/-! ## Configurations -/

/-- Adds the formats that a text lists. -/
def addFormats (formats : List Text) (listed : Text) : Except Error (List Text) :=
  match Options.addFormats formats listed with
  | .ok formats => .ok formats
  | .error e => .error (.format e)

/-- The level of the log. -/
def readLevel (key : Key) (value : Document) : Except Error Log.Level := do
  match Log.Level.read (← readText key value) with
  | .ok level => .ok level
  | .error e => .error (.level e)

/-- Sets what one key stands for. -/
def apply (reader : Reader) (o : Options) (key : Key) (value : Document) : Except Error Options :=
  match key with
  | .root => return { o with root := some (← readPath key value) }
  | .out => return { o with out := some (← readPath key value) }
  | .traces => return { o with traces := some (← readPath key value) }
  | .formats => return { o with formats := ← addTexts key value addFormats }
  | .ignoredPaths =>
    return { o with ignoredPaths := ← addTexts key value fun paths listed => .ok (Options.addPaths paths listed) }
  | .logLevel => return { o with logLevel := some (← readLevel key value) }
  | .historyCapacity => return { o with historyCapacity := some (← readCount reader key value) }
  | .statisticsWindow => return { o with statisticsWindow := some (← readCount reader key value) }
  | .maxWorkers => return { o with maxWorkers := some (← readCount reader key value) }
  | .parsers => applyParsers reader o value

/-- Takes one entry of a configuration into the options. -/
def applyEntry (reader : Reader) (o : Options) (entry : Text × Document) : Except Error Options :=
  match Key.ofText? entry.1 with
  | none => .error (.unknownKey entry.1)
  | some key => apply reader o key entry.2

/-- The options of a configuration. -/
def ofDocument (reader : Reader) (d : Document) : Except Error Options :=
  match d with
  | .mapping entries => entries.foldlM (applyEntry reader) {}
  | _ => .error .rootNotMapping

/-! ## Texts and files -/

/-- Why a configuration cannot be loaded. -/
inductive LoadError where
  | malformed (error : Document.SyntaxError)
  | content (error : Error)
  | fault (fault : Tree.Fault)
  | fileMissing (path : Text)
  | unsupportedFile (extension : Text)
  | malformedFile (path : Text) (error : Document.SyntaxError)

def LoadError.message : LoadError → Text
  | malformed e => "Malformed config YAML: " ++ e.message
  | content e => e.message
  | fault f => f.message
  | fileMissing path => "Config file not found: " ++ path
  | unsupportedFile extension => "Unsupported config format: " ++ extension
  | malformedFile path e => "Malformed config file " ++ path ++ ": " ++ e.message

/-- The options of a configuration; `malformed` is the error for a text that is no document. -/
def loadWith (reader : Reader) (malformed : Document.SyntaxError → LoadError) (content : Text) :
    Except LoadError Options :=
  match reader.load content with
  | .error e => .error (malformed e)
  | .ok d =>
    match ofDocument reader d with
    | .error e => .error (.content e)
    | .ok o => .ok o

/-- The options that a text configures. -/
def load (content : Text) (reader : Reader := .json) : Except LoadError Options := loadWith reader .malformed content

/-- The extensions of configuration files. -/
def extensions : List Text := [".yml", ".yaml"]

/-- The options of a configuration file, with its path. -/
def loadFile (tree : Tree) (path : Text) (reader : Reader := .json) : Except LoadError Options :=
  match tree.status path with
  | .error f => .error (if f.isAbsence then .fileMissing path else .fault f)
  | .ok _ =>
    let extension := Text.lower (Path.extension path)
    if extensions.contains extension then do
      let o ← loadWith reader (.malformedFile path) ((tree.read? path).getD [])
      return { o with config := some path }
    else .error (.unsupportedFile extension)

/-- The options of a command: those of its arguments over those of the configuration file that they name. Who asks for
help needs no configuration. -/
def resolve (tree : Tree) (o : Options) (reader : Reader := .json) : Except LoadError Options :=
  if o.showHelp then .ok o
  else
    match o.config with
    | none => .ok o
    | some path => do return Options.merge (← loadFile tree path reader) o

end RuleFlow.Config
