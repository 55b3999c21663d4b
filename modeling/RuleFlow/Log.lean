import RuleFlow.Json.Basic

/-!
# Log entries and lines

Whatever the library does it reports as a list of entries, in order and whatever their level. A log of some level
writes the entries that are at least as severe, each as one line: `Entry.line`.
-/

namespace RuleFlow.Log

/-! ## Levels -/

/-- How severe an entry is, the most severe first. -/
inductive Level where
  | error
  | warn
  | info
  | debug
  deriving DecidableEq

namespace Level

def all : List Level := [error, warn, info, debug]

/-- The position among the levels: a larger one is less severe. -/
def rank : Level → Nat
  | error => 0
  | warn => 1
  | info => 2
  | debug => 3

def name : Level → Text
  | error => "error"
  | warn => "warn"
  | info => "info"
  | debug => "debug"

/-- A log of level `threshold` writes entries of level `level`. -/
def admits (threshold level : Level) : Bool := level.rank ≤ threshold.rank

/-- The level of a log that nobody asked for. -/
def silent : Level := error

/-- The level with the given name in any letter case and with blanks anywhere; `warning` is a second name. -/
def ofName? (t : Text) : Option Level :=
  let key := Text.lower (t.filter (!Text.isBlankByte ·))
  if key = Text.ofString "warning" then some warn else all.find? (·.name == key)

end Level

/-- A name that no level has. -/
structure UnknownLevel where
  name : Text

def UnknownLevel.message (e : UnknownLevel) : Text := "Unknown log level: " ++ e.name

def Level.read (t : Text) : Except UnknownLevel Level :=
  match Level.ofName? t with
  | some level => .ok level
  | none => .error ⟨t⟩

/-! ## Entries -/

/-- One report of what happened, with named details. -/
structure Entry where
  level : Level
  message : Text
  fields : List (Text × Text) := []

/-- The details as the members of an object, all of them strings. -/
def renderFields (fields : List (Text × Text)) : Text :=
  123 :: (Text.join ", " (fields.map fun (k, v) => Json.quote k ++ ": " ++ Json.quote v) ++ [125])

/-- The line of an entry, its line feed included. The message stands as it is. -/
def Entry.line (stamp : Text) (e : Entry) : Text :=
  "[" ++ stamp ++ "] level=" ++ e.level.name ++ " message=\"" ++ e.message ++ "\" fields=" ++
    renderFields e.fields ++ "\n"

/-- What a log of level `threshold` writes of an entry. -/
def write (threshold : Level) (stamp : Text) (e : Entry) : Text :=
  if threshold.admits e.level then e.line stamp else []

/-- What a log of level `threshold` writes of entries that come one after the other. -/
def writeAll (threshold : Level) (stamp : Text) (es : List Entry) : Text := es.flatMap (write threshold stamp)

end RuleFlow.Log
