import RuleFlow.Calendar
import RuleFlow.Run.Result

/-!
# The history of runs

A history keeps the records of the last runs, the oldest first, and drops the oldest ones beyond its capacity.
-/

namespace RuleFlow.Run

/-- What is kept of a run. -/
structure Record where
  time : Instant
  repository : Text
  phases : Nat
  parsers : Nat
  files : Nat
  attempts : Nat
  successes : Nat
  successRate : Float
  /-- Seconds. -/
  averageTime : Float

/-- The records of the last runs. -/
structure History where
  capacity : Nat
  /-- The oldest record comes first. -/
  records : List Record := []

namespace History

/-- A history without room is refused. -/
inductive Error where
  | noCapacity

def Error.message : Error → Text
  | noCapacity => "Execution history capacity must be positive"

/-- An empty history. -/
def ofCapacity (capacity : Nat) : Except Error History :=
  if capacity = 0 then .error .noCapacity else .ok { capacity }

/-- The last `count` items of a list, or all of them. -/
def lastOf {α : Type} (count : Nat) (items : List α) : List α := items.drop (items.length - count)

/-- Adds a record and drops the oldest ones that no longer fit. -/
def record (h : History) (r : Record) : History := { h with records := lastOf h.capacity (h.records ++ [r]) }

/-- The last `count` records, the oldest first. -/
def recent (h : History) (count : Nat) : List Record := lastOf count h.records

end History

/-- The share of `n` in `total`, zero of nothing. -/
def ratio (n total : Nat) : Float := if total = 0 then 0 else n.toFloat / total.toFloat

/-- The record of a run with the given results. -/
def Record.ofResults (time : Instant) (repository : Text) (phases parsers : Nat) (results : Results) : Record :=
  let all := results.flatten
  let successes := all.countP (·.success)
  let totalTime := all.foldl (fun total r => total + r.executionTime) 0
  { time
    repository
    phases
    parsers
    files := results.size
    attempts := all.length
    successes
    successRate := ratio successes all.length
    averageTime := if all.isEmpty then 0 else totalTime / all.length.toFloat }

/-- A summary of the last runs. -/
structure Statistics where
  totalExecutions : Nat := 0
  averageSuccessRate : Float := 0
  averageTime : Float := 0
  totalFiles : Nat := 0
  configuredParsers : List Parser.Kind := []

/-- The sum of a number of each record. -/
def total (number : Record → Nat) (records : List Record) : Nat := records.foldl (fun sum r => sum + number r) 0

/-- The summary of the records of the last `window` runs. The success rate is taken over all attempts together, the
time over the averages of the runs. -/
def History.statistics (h : History) (window : Nat) (configured : List Parser.Kind) : Statistics :=
  let recent := h.recent window
  let time := recent.foldl (fun total r => total + r.averageTime) 0
  { totalExecutions := h.records.length
    averageSuccessRate := ratio (total (·.successes) recent) (total (·.attempts) recent)
    averageTime := if recent.isEmpty then 0 else time / recent.length.toFloat
    totalFiles := total (·.files) recent
    configuredParsers := configured }

end RuleFlow.Run
