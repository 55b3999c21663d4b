import RuleFlow.Log
import RuleFlow.Parser.Registry

/-!
# Execution plans

The candidates of a run are put into phases: a phase takes every candidate whose dependencies among the candidates lie
in earlier phases. When no candidate is left that could go next, the rest depends on a cycle and is forced into one
last phase.
-/

namespace RuleFlow

open RuleFlow.Parser (Kind Descriptor Registry Priority FilesByKind)

namespace Plan

/-- The parsers that run side by side, in the order of their kinds. -/
structure Phase where
  members : List Descriptor
  /-- Some member waits for another one in the same phase. -/
  forced : Bool := false

/-- The members in the order in which they are started: by priority, then by kind. -/
def Phase.ordered (p : Phase) : List Descriptor :=
  Priority.all.flatMap fun priority => p.members.filter (·.priority = priority)

end Plan

/-- Phases that run one after the other. -/
structure Plan where
  phases : List Plan.Phase

namespace Plan

/-- No dependency of the descriptor is one of the kinds. -/
def isReady (waiting : List Kind) (d : Descriptor) : Bool := d.dependsOn.all (!waiting.contains ·)

/-- The descriptors that can go next when all of `remaining` are still waiting. -/
def ready (remaining : List Descriptor) : List Descriptor :=
  remaining.filter (isReady (remaining.map (·.kind)))

/-- The descriptors that have to wait when all of `remaining` are still waiting. -/
def waiting (remaining : List Descriptor) : List Descriptor :=
  remaining.filter (!isReady (remaining.map (·.kind)) ·)

theorem length_waiting_lt {remaining : List Descriptor} (h : ready remaining ≠ []) :
    (waiting remaining).length < remaining.length := by
  obtain ⟨d, hd⟩ := List.exists_mem_of_ne_nil _ h
  obtain ⟨hmem, hready⟩ := List.mem_filter.1 hd
  exact List.length_filter_lt_length_iff_exists.2 ⟨d, hmem, by simp [hready]⟩

/-- The phases of the descriptors: again and again those that are ready, at last the rest by force. -/
def phasesOf (remaining : List Descriptor) : List Phase :=
  if remaining = [] then []
  else if _h : ready remaining = [] then [{ members := remaining, forced := true }]
  else { members := ready remaining } :: phasesOf (waiting remaining)
termination_by remaining.length
decreasing_by exact length_waiting_lt _h

/-- The plan for the kinds that satisfy `candidate`. -/
def make (candidate : Kind → Bool) (registry : Registry) : Except Registry.Error Plan := do
  let descriptors ← (Kind.all.filter candidate).mapM registry.descriptor
  return { phases := phasesOf descriptors }

/-- The plan for the kinds that have files. -/
def forFiles (files : FilesByKind) (registry : Registry) : Except Registry.Error Plan :=
  make (fun k => !(files k).isEmpty) registry

/-- The number of parsers in all phases. -/
def size (p : Plan) : Nat := (p.phases.flatMap (·.members)).length

/-! ## Log entries -/

/-- The names of the kinds in a phase. -/
def names (ds : List Descriptor) : Text := Text.join [Text.comma] (ds.map (·.kind.name))

/-- The entries of a phase, the first one numbered 1. -/
def Phase.entries (p : Phase) (index : Nat) : List Log.Entry :=
  (if p.forced then [⟨.warn, "planner.cycle_forced", [("parsers", names p.members)]⟩] else []) ++
    [⟨.debug, "planner.phase", [("index", Text.ofNat index), ("parsers", names p.ordered)]⟩]

def entries (p : Plan) : List Log.Entry :=
  (p.phases.mapIdx fun i phase => phase.entries (i + 1)).flatten ++
    [⟨.info, "planner.complete", [("phases", Text.ofNat p.phases.length), ("parsers", Text.ofNat p.size)]⟩]

end Plan

end RuleFlow
