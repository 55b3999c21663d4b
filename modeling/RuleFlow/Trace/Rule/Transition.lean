import RuleFlow.Trace.Basic
import RuleFlow.Trace.Issue

/-!
# Transitions between technologies

`technologyTransitions` looks at each two neighbouring steps. Where the technology of the first one is in the table,
that of the second one should be listed there; letter case and additions around a listed name do no harm.
-/

namespace RuleFlow.Rule

/-- The technologies that usually follow a technology, in byte order of the latter. -/
def transitions : List (Text × List Text) :=
  [("CORBA", ["Java Implementation", "Java"]),
   ("DAO", ["Database"]),
   ("JSP", ["Struts Action", "Java", "Servlet"]),
   ("Java", ["Database", "Service", "DAO", "CORBA"]),
   ("Service", ["DAO", "Database"]),
   ("Struts Action", ["Java", "Service", "DAO"])]

/-- One of the two names occurs in the other, letter case aside. -/
def isPartialMatch (next listed : Text) : Bool :=
  Text.containsInsensitive next listed || Text.containsInsensitive listed next

/-- Nothing speaks against a step from the first technology to the second. -/
def isUsualTransition (current next : Text) : Bool :=
  match transitions.lookup current with
  | none => true
  | some usual => usual.contains next || usual.any (isPartialMatch next)

def transitionIssue (s next : Step) : Issue where
  kind := .technologyGap
  severity := .medium
  description := "Unusual technology transition: " ++ s.technology ++ " -> " ++ next.technology
  steps := [s.order, next.order]
  fix := some "Verify transition is correct or add intermediate steps"

def technologyTransitions (steps : List Step) : List Issue :=
  ((steps.zip steps.tail).filter fun (s, next) => !isUsualTransition s.technology next.technology).map
    fun (s, next) => transitionIssue s next

end RuleFlow.Rule
