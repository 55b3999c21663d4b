import RuleFlow.Trace.Rule
import RuleFlow.Trace.Rule.Content
import RuleFlow.Trace.Rule.Cycle
import RuleFlow.Trace.Rule.Sequence
import RuleFlow.Trace.Rule.Transition

/-!
# The standard rules

The rules that every validator starts with, in the order in which they are run.
-/

namespace RuleFlow.Rule

def standard : List Rule :=
  [total "step_sequence" stepSequence,
   total "dependency_consistency" dependencyConsistency,
   total "confidence_thresholds" confidenceThresholds,
   total "technology_transitions" technologyTransitions,
   total "file_path_validity" filePathValidity,
   total "business_logic_completeness" businessLogicCompleteness,
   total "circular_dependencies" circularDependencies,
   total "duplicate_steps" duplicateSteps]

/-- The standard rule of the given name. -/
def standard? (name : Text) : Option Rule := standard.find? (·.name == name)

end RuleFlow.Rule
