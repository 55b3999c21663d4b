import RuleFlow.Command.Basic
import RuleFlow.Options.Basic

/-!
# Options from arguments

Arguments are flags, some of which take the next argument as their value. Every command has flags of its own beside the
common ones. `Arguments.parse` reads them from left to right; a later value replaces an earlier one, lists grow, and
after a flag that asks for help nothing is read.
-/

namespace RuleFlow

namespace Arguments

/-! ## Flags -/

inductive Flag where
  | help
  | config
  | logLevel
  | verbose
  | debug
  | root
  | ignoredPaths
  | out
  | format
  | traces
  deriving DecidableEq

namespace Flag

/-- The spellings of all flags. -/
def spellings : List (Text × Flag) :=
  [("--help", help), ("-h", help), ("--config", config), ("--log-level", logLevel), ("--verbose", verbose),
   ("--debug", debug), ("--root", root), ("--ignored-paths", ignoredPaths), ("--out", out), ("--format", format),
   ("--traces", traces)]

/-- The flags that every command has. -/
def common : List Flag := [help, config, logLevel, verbose, debug]

/-- The further flags of a command. -/
def special : Command → List Flag
  | .analyze => [root, ignoredPaths, out, format]
  | .plan => [root, ignoredPaths]
  | .validate => [traces, out, format]

/-- The flag of a command with a given spelling. -/
def read? (command : Command) (argument : Text) : Option Flag :=
  (spellings.lookup argument).filter (common ++ special command).contains

end Flag

/-! ## Errors -/

inductive Error where
  | unknown (argument : Text)
  | valueMissing (flag : Text)
  | format (error : Options.UnsupportedFormat)
  | level (error : Log.UnknownLevel)

def Error.message : Error → Text
  | unknown argument => "Unknown argument: " ++ argument
  | valueMissing flag => flag ++ " requires a value"
  | format e => e.message
  | level e => e.message

/-! ## Reading -/

/-- What a flag does: it ends the reading, changes the options or takes a value. -/
inductive Effect where
  | stop
  | change (set : Options → Options)
  | take (set : Options → Text → Except Error Options)

/-- Takes formats from a value. -/
def takeFormats (o : Options) (value : Text) : Except Error Options :=
  match Options.addFormats o.formats value with
  | .ok formats => .ok { o with formats }
  | .error e => .error (.format e)

/-- Takes the level of the log from a value. -/
def takeLevel (o : Options) (value : Text) : Except Error Options :=
  match Log.Level.read value with
  | .ok level => .ok { o with logLevel := some level }
  | .error e => .error (.level e)

def Flag.effect : Flag → Effect
  | help => .stop
  | config => .take fun o value => .ok { o with config := some value }
  | logLevel => .take takeLevel
  | verbose => .change fun o => { o with logLevel := some .info }
  | debug => .change fun o => { o with logLevel := some .debug }
  | root => .take fun o value => .ok { o with root := some value }
  | ignoredPaths => .take fun o value => .ok { o with ignoredPaths := Options.addPaths o.ignoredPaths value }
  | out => .take fun o value => .ok { o with out := some value }
  | format => .take takeFormats
  | traces => .take fun o value => .ok { o with traces := some value }

/-- The options after the arguments of a command, `o` being those before them. -/
def readFrom (command : Command) (o : Options) : List Text → Except Error Options
  | [] => .ok o
  | argument :: rest =>
    match Flag.read? command argument with
    | none => .error (.unknown argument)
    | some flag =>
      match flag.effect with
      | .stop => .ok { o with showHelp := true }
      | .change set => readFrom command (set o) rest
      | .take set =>
        match rest with
        | [] => .error (.valueMissing argument)
        | value :: rest =>
          match set o value with
          | .ok o => readFrom command o rest
          | .error e => .error e

/-- The options that the arguments of a command give. -/
def parse (command : Command) (arguments : List Text) : Except Error Options := readFrom command {} arguments

end Arguments

end RuleFlow
