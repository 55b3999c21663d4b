import RuleFlow.Text.Basic

/-!
# Traces

A trace follows one business rule through the layers of a system, step by step.
-/

namespace RuleFlow

/-- One component that a rule passes through. -/
structure Step where
  order : Int := 0
  stepType : Text := []
  technology : Text := []
  component : Text := []
  file : Text := []
  dependencies : List Text := []
  businessLogic : Text := []
  confidence : Float := 0.5

/-- The way of a business rule through a system. -/
structure Trace where
  id : Text
  ruleName : Text := []
  businessDomain : Text := []
  entryPoint : Text := []
  steps : List Step := []
  confidence : Float := 0

end RuleFlow
