import RuleFlow.Document
import RuleFlow.Path.Tree
import RuleFlow.Trace.Basic

/-!
# Reading traces

A document of traces is a mapping with a list under `traces`. A field that is left out or null takes its default; only
the id of a trace and the order of a step have none. `Trace.ofDocument` reads all traces of a document or says what is
wrong with the first thing that is wrong, in the order of the document.
-/

namespace RuleFlow.Trace

open RuleFlow.Document (Reader)

/-! ## Errors -/

/-- The part of a document that an error is about. -/
inductive Place where
  /-- A trace whose id is not known yet. -/
  | someTrace
  | trace (id : Text)
  | step (id : Text) (order : Int)

def Place.name : Place → Text
  | someTrace => "trace"
  | trace id => "trace '" ++ id ++ "'"
  | step id order => "trace '" ++ id ++ "' step " ++ Text.ofInt order

/-- What is wrong with a document of traces. -/
inductive ReadError where
  | rootNotMapping
  | tracesMissing
  | tracesNotList
  | traceNotMapping
  | idMissing
  | notText (place : Place) (key : Text)
  /-- The value of the key is no scalar, or a scalar with a text that is no number. -/
  | notNumber (place : Place) (key : Text) (text? : Option Text)
  | stepsNotList (place : Place)
  | stepNotMapping (place : Place)
  | orderMissing (place : Place)
  | dependenciesNotTexts (place : Place)

def ReadError.message : ReadError → Text
  | rootNotMapping => "Trace file must contain a mapping at the root"
  | tracesMissing => "Trace file is missing 'traces'"
  | tracesNotList => "'traces' must be a list"
  | traceNotMapping => "Each trace must be a mapping"
  | idMissing => "Trace is missing 'trace_id'"
  | notText place key => place.name ++ ": '" ++ key ++ "' must be a string"
  | notNumber place key none => place.name ++ ": '" ++ key ++ "' must be a number"
  | notNumber place key (some text) => place.name ++ ": '" ++ key ++ "' must be a number, got '" ++ text ++ "'"
  | stepsNotList place => place.name ++ ": 'flow_steps' must be a list"
  | stepNotMapping place => place.name ++ ": each flow step must be a mapping"
  | orderMissing place => place.name ++ ": flow step is missing 'step_order'"
  | dependenciesNotTexts place => place.name ++ ": 'dependencies' must be a list of strings"

/-! ## Fields -/

/-- The text under a key, empty by default. -/
def textField (d : Document) (key : Text) (place : Place) : Except ReadError Text :=
  match d.given? key with
  | none => .ok []
  | some (.scalar t) => .ok t
  | some _ => .error (.notText place key)

/-- The number that a value stands for. -/
def number {α : Type} (read? : Text → Option α) (value : Document) (key : Text) (place : Place) :
    Except ReadError α :=
  match value with
  | .scalar t => (read? t).elim (.error (.notNumber place key (some t))) .ok
  | _ => .error (.notNumber place key none)

/-- The score under a key. -/
def scoreField (reader : Reader) (d : Document) (key : Text) (default : Float) (place : Place) :
    Except ReadError Float :=
  match d.given? key with
  | none => .ok default
  | some value => number reader.float? value key place

/-- The dependencies of a step: a list of texts that stay as they are, or one text that lists them. -/
def dependenciesField (d : Document) (place : Place) : Except ReadError (List Text) :=
  match d.given? "dependencies" with
  | none => .ok []
  | some (.scalar t) => .ok (Text.splitList Text.comma t)
  | some (.sequence items) => items.mapM fun item => item.text?.elim (.error (.dependenciesNotTexts place)) .ok
  | some _ => .error (.dependenciesNotTexts place)

/-! ## Steps and traces -/

/-- The place of a step among the steps, a number of 32 bits. -/
def readOrder? (reader : Reader) (t : Text) : Option Int := reader.int? 32 t

/-- The step of the trace `id` that a mapping stands for. -/
def readStep (reader : Reader) (id : Text) (d : Document) : Except ReadError Step :=
  match d with
  | .mapping _ =>
    match d.given? "step_order" with
    | none => .error (.orderMissing (.trace id))
    | some value => do
      let order ← number (readOrder? reader) value "step_order" (.trace id)
      let place := Place.step id order
      return {
        order
        stepType := ← textField d "step_type" place
        technology := ← textField d "technology" place
        component := ← textField d "component_name" place
        file := ← textField d "file_path" place
        dependencies := ← dependenciesField d place
        businessLogic := ← textField d "business_logic" place
        confidence := ← scoreField reader d "confidence_score" 0.5 place }
  | _ => .error (.stepNotMapping (.trace id))

/-- The steps of the trace `id`. -/
def stepsField (reader : Reader) (id : Text) (d : Document) : Except ReadError (List Step) :=
  match d.given? "flow_steps" with
  | none => .ok []
  | some (.sequence items) => items.mapM (readStep reader id)
  | some _ => .error (.stepsNotList (.trace id))

/-- The trace that a mapping stands for. Its id is trimmed. -/
def read (reader : Reader) (d : Document) : Except ReadError Trace :=
  match d with
  | .mapping _ => do
    let id := Text.trim (← textField d "trace_id" .someTrace)
    if id.isEmpty then .error .idMissing
    else
      let place := Place.trace id
      return {
        id
        ruleName := ← textField d "rule_name" place
        businessDomain := ← textField d "business_domain" place
        entryPoint := ← textField d "entry_point" place
        confidence := ← scoreField reader d "extraction_confidence" 0 place
        steps := ← stepsField reader id d }
  | _ => .error .traceNotMapping

/-- The traces of a document, in order. -/
def ofDocument (reader : Reader) (d : Document) : Except ReadError (List Trace) :=
  match d with
  | .mapping _ =>
    match d.get? "traces" with
    | none => .error .tracesMissing
    | some .null => .ok []
    | some (.sequence items) => items.mapM (read reader)
    | some _ => .error .tracesNotList
  | _ => .error .rootNotMapping

/-! ## Texts and files -/

/-- Why no traces can be loaded. -/
inductive LoadError where
  | malformed (error : Document.SyntaxError)
  | content (error : ReadError)
  | fault (fault : Tree.Fault)
  | fileMissing (path : Text)
  | malformedFile (path : Text) (error : Document.SyntaxError)

def LoadError.message : LoadError → Text
  | malformed e => "Malformed trace YAML: " ++ e.message
  | content e => e.message
  | fault f => f.message
  | fileMissing path => "Trace file not found: " ++ path
  | malformedFile path e => "Malformed trace YAML in " ++ path ++ ": " ++ e.message

/-- The traces of a document; `malformed` is the error for a text that is none. -/
def loadWith (reader : Reader) (malformed : Document.SyntaxError → LoadError) (content : Text) :
    Except LoadError (List Trace) :=
  match reader.load content with
  | .error e => .error (malformed e)
  | .ok d =>
    match ofDocument reader d with
    | .error e => .error (.content e)
    | .ok ts => .ok ts

/-- The traces that a text writes. -/
def load (content : Text) (reader : Reader := .json) : Except LoadError (List Trace) :=
  loadWith reader .malformed content

/-- The traces in a regular file. -/
def loadFile (tree : Tree) (path : Text) (reader : Reader := .json) : Except LoadError (List Trace) :=
  match tree.status path with
  | .ok (.file content) => loadWith reader (.malformedFile path) content
  | .ok _ => .error (.fileMissing path)
  | .error f => .error (if f.isAbsence then .fileMissing path else .fault f)

end RuleFlow.Trace
