import RuleFlow.Json.Reader
import RuleFlow.Number.Reader

/-!
# Documents

Configurations and traces are read from documents: trees of texts. A document spells out its numbers and truth values
as texts, and whoever asks for one of them converts the text. How a file becomes a document and a text becomes a number
is left to a `Document.Reader`; `Reader.json` reads documents from their JSON form.
-/

namespace RuleFlow

/-- A tree of texts. Entries of a mapping keep their order, and their keys are texts: a mapping with a null, a list or a
mapping among its keys is no such tree. -/
inductive Document where
  | null
  | scalar (text : Text)
  | sequence (items : List Document)
  | mapping (entries : List (Text × Document))

namespace Document

/-! ## From JSON -/

mutual
/-- The document that a JSON value writes. -/
def ofJson : Json → Document
  | .null => null
  | .bool b => scalar (Text.ofBool b)
  | .number token => scalar token
  | .string t => scalar t
  | .array items => sequence (ofItems items)
  | .object members => mapping (ofMembers members)

def ofItems : List Json → List Document
  | [] => []
  | v :: rest => ofJson v :: ofItems rest

def ofMembers : List (Text × Json) → List (Text × Document)
  | [] => []
  | (k, v) :: rest => (k, ofJson v) :: ofMembers rest
end

/-- Why a text writes no document. -/
structure SyntaxError where
  message : Text

/-- The document that a JSON text writes, null if it is blank. -/
def loadJson (content : Text) : Except SyntaxError Document :=
  if (Json.skipBlanks content).isEmpty then .ok null
  else
    match Json.parse content with
    | some v => .ok (ofJson v)
    | none => .error ⟨"<yaml error>"⟩

/-! ## Readers -/

/-- How documents are read from texts, and numbers from the texts of a document. -/
structure Reader where
  load : Text → Except SyntaxError Document
  /-- The integer that the text stands for, if it has so many bits with its sign. -/
  int? : (bits : Nat) → Text → Option Int
  float? : Text → Option Float

/-- The reader of the program. -/
def Reader.json : Reader where
  load := loadJson
  int? := Number.readIntOfWidth?
  float? := Number.readFloat?

/-! ## Look-up -/

/-- The entry of a mapping under a key. -/
def get? (d : Document) (key : Text) : Option Document :=
  match d with
  | mapping entries => entries.lookup key
  | _ => none

/-- The entry of a mapping under a key, unless it is null. -/
def given? (d : Document) (key : Text) : Option Document :=
  match d.get? key with
  | some null => none
  | found => found

/-- The text of a scalar. -/
def text? : Document → Option Text
  | scalar t => some t
  | _ => none

end Document

end RuleFlow
