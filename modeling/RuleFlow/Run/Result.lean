import RuleFlow.Parser.Data
import RuleFlow.Parser.Kind

/-!
# Results of a run

Each pair of a parser and a file has one result. The results of a run are listed by file.
-/

namespace RuleFlow.Run

open RuleFlow.Parser (Kind Data)

/-- What came of one parser on one file. -/
structure Result where
  kind : Kind := .java
  file : Text
  success : Bool := false
  data : Data := ∅
  errorMessage : Option Text := none
  errorType : Option Text := none
  /-- Seconds. -/
  executionTime : Float := 0
  confidence : Float := 0
  attempts : Int := 0

/-- Results by file. -/
abbrev Results := Text.Map (List Result)

namespace Results

/-- Adds results at the end of those of a file. -/
def append (rs : Results) (file : Text) (more : List Result) : Results :=
  rs.alter file fun old => some (old.getD [] ++ more)

/-- Adds a result at the end of those of its file. -/
def push (rs : Results) (r : Result) : Results := rs.append r.file [r]

/-- The results of each file in `rs`, followed by those in `more`. -/
def merge (rs more : Results) : Results := more.toList.foldl (fun rs (file, added) => rs.append file added) rs

/-- All results, file by file. -/
def flatten (rs : Results) : List Result := rs.toList.flatMap (·.2)

end Results

end RuleFlow.Run
