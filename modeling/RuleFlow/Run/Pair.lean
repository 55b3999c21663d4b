import RuleFlow.Log
import RuleFlow.Parser.Descriptor
import RuleFlow.Parser.Outcome
import RuleFlow.Run.Result

/-!
# One parser on one file

A pair is a parser with a file that it is to read. Failures that explain themselves are tried again while the deadline
has not passed and retries are left; others are not (`Pair.attempts`). Whoever waits for the pair gives it up at some
time, its deadline or later (`Pair.ending`).
-/

namespace RuleFlow

/-- Nanoseconds from the start of a pair to its deadline. A limit that is not positive is over at once. -/
def Parser.Descriptor.limit (d : Parser.Descriptor) : Nat := (d.timeout * 1000000).toNat

namespace Run

open RuleFlow.Parser (Kind Descriptor Data)

/-- A parser that is about to read a file. -/
structure Pair where
  descriptor : Descriptor
  file : Text
  parser : Parser

/-! ## Attempts -/

/-- How the attempts of a pair end. -/
inductive Ending where
  | found (data : Data) (attempts : Nat)
  /-- Every attempt failed; the message is that of the last one. -/
  | failed (message : Text) (attempts : Nat)
  /-- The last attempt failed without an explanation. -/
  | unexplained (attempts : Nat)
  | timedOut (attempts : Nat)

/-- The attempts that were begun. -/
def Ending.attempts : Ending → Nat
  | found _ attempts | failed _ attempts | unexplained attempts | timedOut attempts => attempts

/-- What the attempts of a pair come to when nobody gives it up. -/
structure Course where
  ending : Ending
  /-- Nanoseconds from the start of the pair to the end of its last attempt, if this ends. -/
  ended? : Option Nat

/-- The report of a failed attempt. -/
def Pair.failureEntry (p : Pair) (attempt : Nat) (message : Text) : Log.Entry :=
  ⟨.warn, "phase.item.error",
    [("parser", p.descriptor.kind.name), ("file", p.file), ("attempt", Text.ofNat attempt), ("error", message)]⟩

/-- The attempts that are left when `earlier` others have taken `elapsed` nanoseconds: the next one, and at most
`retries` more. None is begun after the deadline. -/
def Pair.attempts (p : Pair) (retries earlier elapsed : Nat) : Course × List Log.Entry :=
  let attempt := earlier + 1
  let now := elapsed + p.parser.duration p.file earlier
  match p.parser.outcome p.file earlier with
  | .found data => (⟨.found data attempt, some now⟩, [])
  | .failed .unexplained => (⟨.unexplained attempt, some now⟩, [])
  | .hung => (⟨.timedOut attempt, none⟩, [])
  | .failed (.explained message) =>
    let shown := Text.untilZero message
    let entry := p.failureEntry attempt shown
    match retries with
    | 0 => (⟨.failed shown attempt, some now⟩, [entry])
    | retries + 1 =>
      if p.descriptor.limit ≤ now then (⟨.failed shown attempt, some now⟩, [entry])
      else
        let (course, entries) := p.attempts retries attempt now
        (course, entry :: entries)

/-- All attempts of a pair; with a negative number of retries there is none. -/
def Pair.run (p : Pair) : Course × List Log.Entry :=
  match p.descriptor.maxRetries with
  | .ofNat retries => p.attempts retries 0 0
  | .negSucc _ => (⟨.failed [] 0, some 0⟩, [])

/-- How a pair ends that is given up `patience` nanoseconds after its start. The first attempt counts as begun even if
the pair has not come to it. -/
def Pair.ending (p : Pair) (patience : Nat) : Ending :=
  let course := p.run.1
  if course.ended?.any (· ≤ patience) then course.ending else .timedOut (max 1 course.ending.attempts)

/-! ## Results -/

/-- The error type of a pair that failed. -/
def executionError : Text := "ParserExecutionError"

/-- The error type of a pair that was given up. -/
def timeoutError : Text := "ParserTimeout"

/-- The result of a pair that ends without findings. -/
def failedResult (kind : Kind) (file errorType message : Text) (executionTime : Float) (attempts : Nat) : Result where
  kind
  file
  errorMessage := some message
  errorType := some errorType
  executionTime
  attempts

/-- The result of a pair that ended in a given way. -/
def Pair.result (p : Pair) (executionTime : Float) : Ending → Result
  | .found data attempts =>
    { kind := p.descriptor.kind, file := p.file, success := true, data, confidence := data.confidence
      executionTime, attempts }
  | .failed message attempts => failedResult p.descriptor.kind p.file executionError message executionTime attempts
  | .unexplained attempts =>
    failedResult p.descriptor.kind p.file executionError "Parser raised a non-standard exception" executionTime attempts
  | .timedOut attempts =>
    failedResult p.descriptor.kind p.file timeoutError "Parser execution timeout" executionTime attempts

/-- What is reported when a pair is collected. -/
def Pair.endingEntries (p : Pair) : Ending → List Log.Entry
  | .unexplained _ =>
    [⟨.error, "phase.item.unknown_error", [("parser", p.descriptor.kind.name), ("file", p.file)]⟩]
  | .timedOut attempts =>
    [⟨.error, "phase.item.timeout",
      [("parser", p.descriptor.kind.name), ("file", p.file), ("attempts", Text.ofNat attempts)]⟩]
  | _ => []

end Run

end RuleFlow
