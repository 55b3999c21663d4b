import RuleFlow.Text.Basic

/-!
# Failures of plugged-in code

Parsers, validation rules and log sinks are supplied from outside. One that fails explains itself by a message, or
gives no explanation at all.
-/

namespace RuleFlow

/-- How supplied code failed. -/
inductive Failure where
  | explained (message : Text)
  | unexplained

/-- The message up to its first zero byte, or a text that stands in for it. -/
def Failure.message : Failure → Text
  | explained message => Text.untilZero message
  | unexplained => "non-standard exception"

end RuleFlow
