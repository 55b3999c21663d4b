import RuleFlow.Parser.Registry
import RuleFlow.Run.Pair

/-!
# Running a phase

A phase pairs each of its parsers with each file of the parser's kind. Pairs whose parser cannot be made fail at once;
the others pass through a queue that keeps at most a given number of them running and collects them in the order in
which they were started. A pair is waited for until its deadline, or until its turn comes if that is later: what has
ended by then is taken as it is, and what has not is given up and leaves its place to another pair.
-/

namespace RuleFlow.Run

open RuleFlow.Parser (Kind Descriptor Registry FilesByKind)

/-! ## The queue -/

/-- A pair that runs since a time. -/
structure Running where
  pair : Pair
  started : Nat

/-- Nanoseconds after its start at which a running pair is given up whose turn comes at a time. -/
def Running.patience (r : Running) (now : Nat) : Nat := max (now - r.started) r.pair.descriptor.limit

/-- The time at which a running pair is done with whose turn comes at another: when it ends or is given up. -/
def Running.done (r : Running) (now : Nat) : Nat :=
  max now (r.started + r.pair.run.1.ended?.elim (r.patience now) (min (r.patience now)))

/-- A pair with the nanoseconds that it was given. -/
structure Collected where
  pair : Pair
  patience : Nat

/-- Pairs that wait and pairs that run, both in the order in which they are taken. -/
structure Queue where
  pending : List Pair
  running : List Running := []
  /-- Nanoseconds since the queue was set up. Only waiting takes time. -/
  now : Nat := 0

/-- Starts waiting pairs until `workers` pairs run or none waits. -/
def Queue.fill (workers : Nat) (q : Queue) : Queue :=
  let free := workers - q.running.length
  { q with
    pending := q.pending.drop free
    running := q.running ++ (q.pending.take free).map fun pair => { pair, started := q.now } }

/-- Collects the pairs of a queue one by one, and starts waiting ones whenever there is room. There are `fuel` pairs at
most, and room for at least one. -/
def Queue.collect (workers : Nat) : (fuel : Nat) → Queue → List Collected
  | 0, _ => []
  | fuel + 1, q =>
    let q := q.fill workers
    match q.running with
    | [] => []
    | r :: rest =>
      { pair := r.pair, patience := r.patience q.now } ::
        Queue.collect workers fuel { q with running := rest, now := r.done q.now }

/-- The pairs in the order in which at most `workers` running at once are collected. -/
def schedule (workers : Nat) (pairs : List Pair) : List Collected :=
  Queue.collect workers pairs.length { pending := pairs }

/-! ## The phase -/

/-- Seconds that are measured for a parser of a kind and a file. -/
abbrev Stopwatch := Kind → Text → Float

/-- The number of pairs that run at once unless one is given: as many as the machine runs, or four if that is
unknown. -/
def defaultWorkers (hardware : Nat) : Nat := if hardware = 0 then 4 else hardware

/-- The machine that a phase runs on. -/
structure Machine where
  /-- How many threads run at once, zero if unknown. -/
  hardware : Nat := 0
  stopwatch : Stopwatch := fun _ _ => 0
  /-- How often the factory of each kind was called before. -/
  calls : Kind → Nat := fun _ => 0

/-- The number of pairs that run at once when `workers` is asked for and zero means the default. -/
def Machine.workers (m : Machine) (workers : Nat) : Nat :=
  if workers = 0 then defaultWorkers m.hardware else workers

/-- A file for a parser of a descriptor, and the number of calls of the parser's factory before the one for it. -/
structure Task where
  descriptor : Descriptor
  file : Text
  earlier : Nat

/-- Each descriptor with each file that is listed for its kind. -/
def pairs (phase : List Descriptor) (files : FilesByKind) : List (Descriptor × Text) :=
  phase.flatMap fun d => (files d.kind).map (d, ·)

/-- Descriptors and files with the calls of each factory counted from `calls` on. -/
def number (calls : Kind → Nat) : List (Descriptor × Text) → List Task
  | [] => []
  | (descriptor, file) :: rest =>
    let earlier := calls descriptor.kind
    { descriptor, file, earlier } :: number (Kind.update calls descriptor.kind (earlier + 1)) rest

/-- What is to be done in a phase, in order. -/
def tasks (machine : Machine) (phase : List Descriptor) (files : FilesByKind) : List Task :=
  number machine.calls (pairs phase files)

/-- The pair of a task, or the result if its parser cannot be made. -/
def prepare (registry : Registry) (t : Task) : Pair ⊕ Result :=
  let kind := t.descriptor.kind
  if (registry.factory? kind).isNone then
    .inr (failedResult kind t.file executionError ("Parser instance not found: " ++ kind.name) 0 0)
  else
    match registry.make kind t.earlier with
    | .ok parser => .inl { descriptor := t.descriptor, file := t.file, parser }
    | .error e => .inr (failedResult kind t.file executionError (Text.untilZero e.message) 0 0)

/-- The pairs that can run. -/
def pairsOf (prepared : List (Pair ⊕ Result)) : List Pair := prepared.filterMap (·.getLeft?)

/-- The results that are there before anything runs. -/
def unmadeResults (prepared : List (Pair ⊕ Result)) : List Result := prepared.filterMap (·.getRight?)

/-- Runs a phase: its results, and what is reported. Pairs that run at once report at once; here their reports are
listed pair by pair. -/
def runPhase (machine : Machine) (workers : Nat) (registry : Registry) (phase : List Descriptor)
    (files : FilesByKind) : Results × List Log.Entry :=
  let prepared := (tasks machine phase files).map (prepare registry)
  let width := machine.workers workers
  let waiting := pairsOf prepared
  let ended := (schedule width waiting).map fun c => (c.pair, c.pair.ending c.patience)
  let results := unmadeResults prepared ++
    ended.map fun (p, ending) => p.result (machine.stopwatch p.descriptor.kind p.file) ending
  let started : Log.Entry :=
    ⟨.debug, "phase.items.pending", [("items", Text.ofNat waiting.length), ("max_workers", Text.ofNat width)]⟩
  (results.foldl Results.push ∅,
    started :: ended.flatMap fun (p, ending) => p.run.2 ++ p.endingEntries ending)

end RuleFlow.Run
