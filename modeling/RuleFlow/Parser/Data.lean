import RuleFlow.Json.Basic
import RuleFlow.Number.Decimal

/-!
# What a parser finds

The findings on one file are values under names. `Data.toJson` and `Data.cell` write them with the names in order.
-/

namespace RuleFlow.Parser

/-- A single finding. -/
inductive Value where
  | text (value : Text)
  | number (value : Float)
  | flag (value : Bool)
  | texts (value : List Text)

/-- The findings on a file, by name. -/
abbrev Data := Text.Map Value

/-- The name under which a parser states how sure it is. -/
def confidenceName : Text := "confidence_score"

/-- The confidence in findings that state none. -/
def defaultConfidence : Float := 0.5

/-- The number that the findings state as their confidence, if they state a number. -/
def Data.confidence (data : Data) : Float :=
  match data[confidenceName]? with
  | some (.number score) => score
  | _ => defaultConfidence

/-- A number of the findings has at most six significant digits. -/
def renderNumber (x : Float) : Text := Decimal.significant 6 x

def Value.toJson : Value → Json
  | text t => .string t
  | number x => .number (renderNumber x)
  | flag b => .bool b
  | texts ts => .strings ts

def Value.toText : Value → Text
  | text t => t
  | number x => renderNumber x
  | flag b => Text.ofBool b
  | texts ts => Text.join ", " ts

/-- The findings as an object, with its names in byte order. -/
def Data.toJson (data : Data) : Json := .object (data.toList.map fun (name, value) => (name, value.toJson))

end RuleFlow.Parser
