import Mathlib.Order.Bounds.Basic
import RuleFlow.Proofs.Plan.Partition

/-!
# Plans without delay

Where the needs of the candidates have no cycle, a candidate is put into a phase as early as its needs allow: as many
phases come before it as the longest chain of needs from it has steps. So a plan has as many phases as the longest chain
has kinds, and no schedule (`IsSchedule`) can do with fewer.
-/

namespace RuleFlow.Plan

open RuleFlow.Parser (Kind Descriptor Registry)

/-- Candidates, each of which needs the next one. -/
structure IsChainOfNeeds (candidate : Kind → Bool) (registry : Registry) (chain : List Kind) : Prop where
  candidates : ∀ k ∈ chain, candidate k
  needs : chain.IsChain (Needs candidate registry)

/-- The kind is in the part of a schedule at an index. -/
def ScheduledAt (schedule : List (List Kind)) (i : Nat) (k : Kind) : Prop := ∃ part ∈ schedule[i]?, k ∈ part

/-- Kinds in parts that are run one after the other: every candidate is in some part, and what a kind needs is in parts
before it. -/
structure IsSchedule (candidate : Kind → Bool) (registry : Registry) (schedule : List (List Kind)) : Prop where
  covers : ∀ k, candidate k → ∃ i, ScheduledAt schedule i k
  behind : ∀ i k, ScheduledAt schedule i k → ∀ dep, Needs candidate registry k dep → ∃ j < i, ScheduledAt schedule j dep

/-- The kinds of each phase, in the order in which they are started. -/
def schedule (p : Plan) : List (List Kind) := p.phases.map fun phase => kinds phase.ordered

variable {candidate : Kind → Bool} {registry : Registry} {ds : List Descriptor} {phase : Phase} {k : Kind} {i : Nat}

/-! ## Schedules -/

theorem scheduledAt_schedule {p : Plan} : ScheduledAt p.schedule i k ↔ p.At i k := by
  simp [ScheduledAt, At, schedule, mem_kinds_ordered]

/-- A chain from a kind needs as many parts before the kind as it has further kinds. -/
theorem IsSchedule.length_le {parts : List (List Kind)} {rest : List Kind} (h : IsSchedule candidate registry parts)
    (hchain : (k :: rest).IsChain (Needs candidate registry)) (hk : ScheduledAt parts i k) : rest.length ≤ i := by
  induction rest generalizing k i with
  | nil => exact Nat.zero_le i
  | cons dep rest ih =>
      obtain ⟨hneeds, hrest⟩ := List.isChain_cons_cons.mp hchain
      obtain ⟨j, hj, hdep⟩ := h.behind i k hk dep hneeds
      exact Nat.lt_of_le_of_lt (ih hrest hdep) hj

/-- A schedule has at least as many parts as a chain has kinds. -/
theorem IsSchedule.length_chain_le {parts : List (List Kind)} {chain : List Kind}
    (h : IsSchedule candidate registry parts) (hchain : IsChainOfNeeds candidate registry chain) :
    chain.length ≤ parts.length := by
  cases chain with
  | nil => exact Nat.zero_le _
  | cons k rest =>
      obtain ⟨i, hk⟩ := h.covers k (hchain.candidates k List.mem_cons_self)
      have hrest := h.length_le hchain.needs hk
      obtain ⟨part, hpart, -⟩ := hk
      have hi := (List.getElem?_eq_some_iff.mp hpart).1
      rw [List.length_cons]
      omega

theorem isSchedule_phasesOf (hkeyed : registry.Keyed) (hall : ∀ k, candidate k → (registry.descriptor? k).isSome)
    (hacyclic : Acyclic (Needs candidate registry)) :
    IsSchedule candidate registry (schedule ⟨phasesOf (candidates candidate registry)⟩) := by
  constructor
  · intro k hk
    obtain ⟨i, hi⟩ := at_of_candidate hkeyed hall hk
    exact ⟨i, scheduledAt_schedule.mpr hi⟩
  · intro i k hk dep hneeds
    obtain ⟨phase, hi, hmem⟩ := scheduledAt_schedule.mp hk
    have hforced := forced_eq_false_of_acyclic hkeyed hall hacyclic (List.mem_of_getElem? hi)
    obtain ⟨j, hj, hdep⟩ := at_earlier_of_needs hkeyed hall hi hforced hmem hneeds
    exact ⟨j, hj, scheduledAt_schedule.mpr hdep⟩

/-! ## Chains down to the first phase -/

/-- From each kind a chain goes down phase by phase: whoever waits for a first phase depends on a kind that is still
there with it. -/
theorem exists_chain_of_mem_phase (hi : (phasesOf ds)[i]? = some phase) (hk : k ∈ kinds phase.members) :
    ∃ rest, (k :: rest).IsChain (WaitsIn ds) ∧ (∀ j ∈ k :: rest, j ∈ kinds ds) ∧ rest.length = i := by
  induction ds using phasesOf.induct generalizing i with
  | case1 => simp at hi
  | case2 ds hne hstuck =>
      rw [phasesOf_stuck hne hstuck, List.getElem?_singleton] at hi
      split at hi
      · rename_i hzero
        cases hi
        exact ⟨[], List.isChain_singleton k, List.forall_mem_singleton.mpr hk, hzero.symm⟩
      · cases hi
  | case3 ds hne hready ih =>
      rw [phasesOf_ready hne hready] at hi
      cases i with
      | zero =>
          cases hi
          have hmem : k ∈ kinds ds := List.map_subset _ List.filter_sublist.subset hk
          exact ⟨[], List.isChain_singleton k, List.forall_mem_singleton.mpr hmem, rfl⟩
      | succ i =>
          rw [List.getElem?_cons_succ] at hi
          obtain ⟨rest, hchain, hmem, hlength⟩ := ih hi
          have hlast := hmem _ (List.getLast_mem (List.cons_ne_nil k rest))
          obtain ⟨dep, hwaits⟩ := exists_waitsIn_of_mem_waiting hlast
          refine ⟨rest ++ [dep], ?_, ?_, by simp [hlength]⟩
          · refine isChain_concat (hchain.imp fun _ _ => WaitsIn.of_waiting) fun j hj => ?_
            rw [List.getLast?_eq_some_getLast (List.cons_ne_nil k rest)] at hj
            exact Option.some.inj hj ▸ hwaits
          · intro j hj
            rw [← List.cons_append, List.mem_append, List.mem_singleton] at hj
            rcases hj with hj | rfl
            · exact kinds_waiting_subset ds (hmem j hj)
            · exact hwaits.1

theorem exists_chain_of_at (hkeyed : registry.Keyed) (hall : ∀ k, candidate k → (registry.descriptor? k).isSome)
    (hk : At ⟨phasesOf (candidates candidate registry)⟩ i k) :
    ∃ rest, IsChainOfNeeds candidate registry (k :: rest) ∧ rest.length = i := by
  obtain ⟨phase, hi, hk⟩ := hk
  obtain ⟨rest, hchain, hmem, hlength⟩ := exists_chain_of_mem_phase hi hk
  rw [waitsIn_candidates hkeyed hall] at hchain
  exact ⟨rest, ⟨fun j hj => (mem_kinds_candidates hkeyed hall).mp (hmem j hj), hchain⟩, hlength⟩

/-! ## Plans -/

/-- Without a cycle of needs, a kind is in the phase whose index is the length of the longest chain of needs from the
kind. -/
theorem at_phasesOf_iff (hkeyed : registry.Keyed) (hall : ∀ k, candidate k → (registry.descriptor? k).isSome)
    (hacyclic : Acyclic (Needs candidate registry)) :
    At ⟨phasesOf (candidates candidate registry)⟩ i k ↔ candidate k ∧
      IsGreatest {n | ∃ rest, IsChainOfNeeds candidate registry (k :: rest) ∧ rest.length = n} i := by
  have hschedule := isSchedule_phasesOf hkeyed hall hacyclic
  have hgreatest : ∀ i, At ⟨phasesOf (candidates candidate registry)⟩ i k →
      IsGreatest {n | ∃ rest, IsChainOfNeeds candidate registry (k :: rest) ∧ rest.length = n} i := by
    intro i hk
    refine ⟨exists_chain_of_at hkeyed hall hk, ?_⟩
    rintro _ ⟨rest, hchain, rfl⟩
    exact hschedule.length_le hchain.needs (scheduledAt_schedule.mpr hk)
  constructor
  · intro hk
    obtain ⟨rest, hchain, -⟩ := exists_chain_of_at hkeyed hall hk
    exact ⟨hchain.candidates k List.mem_cons_self, hgreatest i hk⟩
  · rintro ⟨hk, hi⟩
    obtain ⟨j, hj⟩ := at_of_candidate hkeyed hall hk
    rwa [hi.unique (hgreatest j hj)]

/-- There are as many phases as the longest chain of needs has kinds. -/
theorem isGreatest_length_phasesOf (hkeyed : registry.Keyed) (hall : ∀ k, candidate k → (registry.descriptor? k).isSome)
    (hacyclic : Acyclic (Needs candidate registry)) :
    IsGreatest {n | ∃ chain, IsChainOfNeeds candidate registry chain ∧ chain.length = n}
      (phasesOf (candidates candidate registry)).length := by
  constructor
  · cases hlength : (phasesOf (candidates candidate registry)).length with
    | zero => exact ⟨[], ⟨by simp, .nil⟩, rfl⟩
    | succ i =>
        have hi : i < (phasesOf (candidates candidate registry)).length := by omega
        obtain ⟨d, hd⟩ := List.exists_mem_of_ne_nil _ (members_ne_nil (List.getElem_mem hi))
        obtain ⟨rest, hchain, hrest⟩ :=
          exists_chain_of_at hkeyed hall ⟨_, List.getElem?_eq_getElem hi, mem_kinds_of_mem hd⟩
        exact ⟨d.kind :: rest, hchain, by rw [List.length_cons, hrest]⟩
  · rintro _ ⟨chain, hchain, rfl⟩
    simpa [schedule] using (isSchedule_phasesOf hkeyed hall hacyclic).length_chain_le hchain

/-- Where the needs have no cycle, a plan exists and loses no time. The index of the phase of a candidate, counted from
zero, is the length of the longest chain of needs from the candidate. The number of phases is that of the kinds in the
longest chain of all. The plan is a schedule itself, and no schedule has fewer parts. -/
theorem make_depth (hregistry : registry.Reachable) (hall : ∀ k, candidate k → (registry.descriptor? k).isSome)
    (hacyclic : Acyclic (Needs candidate registry)) :
    ∃ plan, make candidate registry = .ok plan ∧
      (∀ i k, plan.At i k ↔ candidate k ∧
        IsGreatest {n | ∃ rest, IsChainOfNeeds candidate registry (k :: rest) ∧ rest.length = n} i) ∧
      IsGreatest {n | ∃ chain, IsChainOfNeeds candidate registry chain ∧ chain.length = n} plan.phases.length ∧
      IsSchedule candidate registry plan.schedule ∧
      ∀ parts, IsSchedule candidate registry parts → plan.phases.length ≤ parts.length := by
  have hkeyed := hregistry.keyed
  have hlength := isGreatest_length_phasesOf hkeyed hall hacyclic
  refine ⟨_, make_eq_ok hall, fun i k => at_phasesOf_iff hkeyed hall hacyclic, hlength,
    isSchedule_phasesOf hkeyed hall hacyclic, fun parts hparts => ?_⟩
  obtain ⟨chain, hchain, hlongest⟩ := hlength.1
  exact hlongest.symm.trans_le (hparts.length_chain_le hchain)

/-- Among the default descriptors one kind depends on two others, so that its phase is not the first one. -/
theorem make_depth_defaults :
    ∃ plan, make (· ≠ .java) Registry.withDefaults = .ok plan ∧ 2 ≤ plan.phases.length ∧
      ∀ i, plan.At i .strutsAction → 1 ≤ i := by
  have hall : ∀ k, (k ≠ .java : Bool) → (Registry.withDefaults.descriptor? k).isSome := by decide
  have hacyclic : Acyclic (Needs (· ≠ .java) Registry.withDefaults) := by
    have hdown : ∀ k, ∀ d ∈ Registry.withDefaults.descriptor? k, ∀ dep ∈ d.dependsOn, dep.rank < k.rank := by decide
    refine acyclic_of_lt Kind.rank ?_
    rintro k dep ⟨-, -, d, hd, hmem⟩
    exact hdown k d hd dep hmem
  have hchain : IsChainOfNeeds (· ≠ .java) Registry.withDefaults [.strutsAction, .struts] := by
    have hneeds : Needs (· ≠ .java) Registry.withDefaults .strutsAction .struts := ⟨rfl, rfl, _, rfl, by decide⟩
    exact ⟨by decide, List.isChain_pair.mpr hneeds⟩
  obtain ⟨plan, hplan, hphase, hlength, -⟩ := make_depth Registry.Reachable.defaults hall hacyclic
  exact ⟨plan, hplan, hlength.2 ⟨_, hchain, rfl⟩, fun i hi => ((hphase i _).mp hi).2.2 ⟨_, hchain, rfl⟩⟩

end RuleFlow.Plan
