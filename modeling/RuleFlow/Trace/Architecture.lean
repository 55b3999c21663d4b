import RuleFlow.Trace.Basic
import RuleFlow.Trace.Issue

/-!
# Architectural patterns

A pattern is a sequence of layers. A flow follows the pattern that has the largest share of its layers among the
technologies of the flow, if that is more than half of them, and should then have all of them.
-/

namespace RuleFlow

/-- The layers that flows of some architecture pass through. -/
structure Pattern where
  name : Text
  layers : List Text

namespace Pattern

def defaults : List Pattern :=
  [⟨"web_mvc", ["JSP", "Struts Action", "Java", "Database"]⟩,
   ⟨"service_oriented", ["JSP", "Struts Action", "Service", "DAO", "Database"]⟩,
   ⟨"corba_integration", ["CORBA", "Java Implementation", "Service", "Database"]⟩,
   ⟨"layered_architecture", ["Presentation", "Business", "Data"]⟩]

/-- Some technology has the name of the layer in it, letter case aside. -/
def hasLayer (technologies : List Text) (layer : Text) : Bool :=
  technologies.any (Text.containsInsensitive · layer)

/-- The number of layers that are there. -/
def present (p : Pattern) (technologies : List Text) : Nat := p.layers.countP (hasLayer technologies)

/-- The share of the layers that are there, zero of none. -/
def score (p : Pattern) (technologies : List Text) : Float :=
  if p.layers.isEmpty then 0 else (p.present technologies).toFloat / p.layers.length.toFloat

/-- The layers that are not there, in order. -/
def missing (p : Pattern) (technologies : List Text) : List Text :=
  p.layers.filter (!hasLayer technologies ·)

end Pattern

/-- The patterns that flows are compared with. -/
structure Architecture where
  patterns : List Pattern := Pattern.defaults

namespace Architecture

/-- A pattern without layers is refused. -/
inductive Error where
  | noLayers (pattern : Text)

def Error.message : Error → Text
  | noLayers pattern => "Architectural pattern '" ++ pattern ++ "' has no technologies"

def ofPatterns (patterns : List Pattern) : Except Error Architecture :=
  match patterns.find? (·.layers.isEmpty) with
  | some p => .error (.noLayers p.name)
  | none => .ok { patterns }

/-- The share of layers that a flow must have more of to follow a pattern. -/
def minimumScore : Float := 0.5

/-- The first pattern with the largest positive score, and that score; zero without one. -/
def best (a : Architecture) (technologies : List Text) : Option Pattern × Float :=
  a.patterns.foldl
    (fun best p => if best.2 < p.score technologies then (some p, p.score technologies) else best)
    (none, 0)

/-- The pattern that flows with these technologies follow. -/
def identify (a : Architecture) (technologies : List Text) : Option Pattern :=
  let (pattern, score) := a.best technologies
  if score ≤ minimumScore then none else pattern

def noPatternIssue (steps : List Step) : Issue where
  kind := .technologyGap
  severity := .medium
  description := "Flow doesn't match any recognized architectural pattern"
  steps := steps.map (·.order)
  fix := some "Review architectural pattern and ensure all layers are traced"

def missingLayerIssue (layer : Text) : Issue where
  kind := .missingLink
  severity := .high
  description := "Missing expected technology layer: " ++ layer
  fix := some ("Verify if " ++ layer ++ " layer exists and should be included in trace")
  impact := -0.2

/-- The issues of a flow: that it follows no pattern, or the layers that it lacks of the one that it follows. -/
def issues (a : Architecture) (steps : List Step) : List Issue :=
  let technologies := steps.map (·.technology)
  match a.identify technologies with
  | none => [noPatternIssue steps]
  | some p => (p.missing technologies).map missingLayerIssue

end Architecture

end RuleFlow
