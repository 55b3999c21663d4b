import RuleFlow.Failure
import RuleFlow.Parser.Data

/-!
# Parsers

A parser is known by how each attempt on a file ends and by the time that it takes. An attempt returns findings, fails,
or never ends. Parsers are made by factories, which may do something else on every call.
-/

namespace RuleFlow

namespace Parser

/-- How an attempt on a file ends. -/
inductive Outcome where
  | found (data : Data)
  | failed (failure : Failure)
  /-- It never does. -/
  | hung

end Parser

/-- A parser, as far as it can be observed. -/
structure Parser where
  /-- How the attempt on `file` ends that follows `earlier` other attempts of the same parser. -/
  outcome : (file : Text) → (earlier : Nat) → Parser.Outcome
  /-- Nanoseconds that this attempt takes, unless it never ends. -/
  duration : (file : Text) → (earlier : Nat) → Nat := fun _ _ => 0

namespace Parser

/-- A parser whose attempts end as listed, all later ones like the last. Without a list it always finds nothing. -/
def script (outcomes : List Outcome) : Parser where
  outcome _ earlier := (outcomes[earlier]? <|> outcomes.getLast?).getD (.found ∅)

/-- What a call of a factory ends with. -/
inductive Made where
  | parser (parser : Parser)
  /-- It ends without a parser. -/
  | nothing
  | failure (message : Text)

/-- How the parsers of a kind come into being when they are needed. -/
structure Factory where
  /-- What the call ends with that follows `earlier` other calls. -/
  call : (earlier : Nat) → Made

namespace Factory

/-- Every call ends with the same parser. -/
def makes (parser : Parser) : Factory := ⟨fun _ => .parser parser⟩

/-- Every call ends without a parser. -/
def nothing : Factory := ⟨fun _ => .nothing⟩

/-- Every call fails in the same way. -/
def fails (message : Text) : Factory := ⟨fun _ => .failure message⟩

end Factory

end Parser

end RuleFlow
