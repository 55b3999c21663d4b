import Mathlib.Data.List.Induction
import RuleFlow.Proofs.Plan.Phases

/-!
# The order of a plan

A plan for candidates that all have descriptors exists, has every candidate in a phase and puts each one behind what it
needs. Where the needs have a cycle, the last phase is forced and reported, and no other.
-/

namespace RuleFlow.Plan

open RuleFlow.Parser (Kind Descriptor Registry)

/-- The candidate `k` depends on the candidate `dep`. -/
def Needs (candidate : Kind → Bool) (registry : Registry) (k dep : Kind) : Prop :=
  candidate k ∧ candidate dep ∧ ∃ d, registry.descriptor? k = some d ∧ dep ∈ d.dependsOn

/-- The descriptors of the candidates, in the order of their kinds. -/
def candidates (candidate : Kind → Bool) (registry : Registry) : List Descriptor :=
  (Kind.all.filter candidate).filterMap registry.descriptor?

/-- The kind is in the phase at an index. -/
def At (p : Plan) (i : Nat) (k : Kind) : Prop := ∃ phase ∈ p.phases[i]?, k ∈ kinds phase.members

variable {candidate : Kind → Bool} {registry : Registry}

/-! ## Candidates -/

theorem mapM_descriptor {ks : List Kind} (hall : ∀ k ∈ ks, (registry.descriptor? k).isSome) :
    ks.mapM registry.descriptor = .ok (ks.filterMap registry.descriptor?) := by
  induction ks with
  | nil => rfl
  | cons k ks ih =>
      obtain ⟨d, hd⟩ := Option.isSome_iff_exists.mp (hall k List.mem_cons_self)
      have hk : registry.descriptor k = .ok d := by simp [Registry.descriptor, hd]
      rw [List.mapM_cons, hk, ih fun k hk => hall k (List.mem_cons_of_mem _ hk), List.filterMap_cons_some hd]
      rfl

theorem make_eq_ok (hall : ∀ k, candidate k → (registry.descriptor? k).isSome) :
    make candidate registry = .ok { phases := phasesOf (candidates candidate registry) } := by
  have hks : ∀ k ∈ Kind.all.filter candidate, (registry.descriptor? k).isSome :=
    fun k hk => hall k (List.mem_filter.mp hk).2
  rw [make, mapM_descriptor hks]
  rfl

theorem kinds_filterMap_descriptor (hkeyed : registry.Keyed) {ks : List Kind}
    (hall : ∀ k ∈ ks, (registry.descriptor? k).isSome) : kinds (ks.filterMap registry.descriptor?) = ks := by
  induction ks with
  | nil => rfl
  | cons k ks ih =>
      obtain ⟨d, hd⟩ := Option.isSome_iff_exists.mp (hall k List.mem_cons_self)
      rw [List.filterMap_cons_some hd]
      have hrest := ih fun k hk => hall k (List.mem_cons_of_mem _ hk)
      simp only [kinds, List.map_cons] at hrest ⊢
      rw [hrest, hkeyed k d hd]

theorem kinds_candidates (hkeyed : registry.Keyed) (hall : ∀ k, candidate k → (registry.descriptor? k).isSome) :
    kinds (candidates candidate registry) = Kind.all.filter candidate :=
  kinds_filterMap_descriptor hkeyed fun k hk => hall k (List.mem_filter.mp hk).2

theorem mem_kinds_candidates (hkeyed : registry.Keyed)
    (hall : ∀ k, candidate k → (registry.descriptor? k).isSome) {k : Kind} :
    k ∈ kinds (candidates candidate registry) ↔ candidate k := by
  rw [kinds_candidates hkeyed hall, List.mem_filter]
  exact and_iff_right k.mem_all

theorem mem_candidates {d : Descriptor} :
    d ∈ candidates candidate registry ↔ ∃ k, candidate k ∧ registry.descriptor? k = some d := by
  simp [candidates, List.mem_filterMap, Kind.mem_all]

theorem descriptor_of_mem_candidates (hkeyed : registry.Keyed) {d : Descriptor}
    (hd : d ∈ candidates candidate registry) : registry.descriptor? d.kind = some d := by
  obtain ⟨k, -, hk⟩ := mem_candidates.mp hd
  rw [hkeyed k d hk, hk]

theorem waitsIn_candidates (hkeyed : registry.Keyed) (hall : ∀ k, candidate k → (registry.descriptor? k).isSome) :
    WaitsIn (candidates candidate registry) = Needs candidate registry := by
  funext k dep
  apply propext
  rw [WaitsIn, mem_kinds_candidates hkeyed hall]
  constructor
  · rintro ⟨hdep, d, hd, rfl, hmem⟩
    obtain ⟨k, hk, hk'⟩ := mem_candidates.mp hd
    obtain rfl := hkeyed k d hk'
    exact ⟨hk, hdep, d, hk', hmem⟩
  · rintro ⟨hk, hdep, d, hd, hmem⟩
    exact ⟨hdep, d, mem_candidates.mpr ⟨k, hk, hd⟩, hkeyed k d hd, hmem⟩

/-! ## Reports of forced phases -/

/-- The message of the report that a phase is forced. -/
def forcedMessage : Text := "planner.cycle_forced"

theorem countP_phase_entries (phase : Phase) (index : Nat) :
    (phase.entries index).countP (·.message = forcedMessage) = if phase.forced then 1 else 0 := by
  have hphase : Text.ofString "planner.phase" ≠ forcedMessage := by decide
  cases hforced : phase.forced
  · simp [Phase.entries, hforced, hphase]
  · simp [Phase.entries, hforced]
    rfl

/-- Each forced phase is reported once, and nothing else is reported in this way. -/
theorem countP_entries (p : Plan) :
    p.entries.countP (·.message = forcedMessage) = p.phases.countP (·.forced) := by
  have hcomplete : Text.ofString "planner.complete" ≠ forcedMessage := by decide
  have hphases : ∀ phases : List Phase,
      ((phases.mapIdx fun i phase => phase.entries (i + 1)).flatten).countP (·.message = forcedMessage) =
        phases.countP (·.forced) := by
    intro phases
    induction phases using List.reverseRecOn with
    | nil => rfl
    | append_singleton phases phase ih =>
        rw [List.mapIdx_concat, List.flatten_append, List.countP_append, List.countP_append, ih]
        simp [countP_phase_entries, List.countP_singleton]
  rw [entries, List.countP_append, hphases]
  simp [hcomplete]

theorem countP_forced_le_one (ds : List Descriptor) : (phasesOf ds).countP (·.forced) ≤ 1 := by
  induction ds using phasesOf.induct with
  | case1 => simp
  | case2 ds hne hstuck => simp [phasesOf_stuck hne hstuck]
  | case3 ds hne hready ih =>
      rw [phasesOf_ready hne hready, List.countP_cons]
      simpa using ih

/-! ## Plans -/

theorem at_of_candidate (hkeyed : registry.Keyed) (hall : ∀ k, candidate k → (registry.descriptor? k).isSome)
    {k : Kind} (hk : candidate k) : ∃ i, At ⟨phasesOf (candidates candidate registry)⟩ i k := by
  obtain ⟨d, hd, rfl⟩ := mem_kinds.mp ((mem_kinds_candidates hkeyed hall).mpr hk)
  have hperm := flatMap_members_phasesOf_perm (candidates candidate registry)
  obtain ⟨phase, hphase, hmem⟩ := List.mem_flatMap.mp (hperm.mem_iff.mpr hd)
  obtain ⟨i, hi⟩ := List.getElem?_of_mem hphase
  exact ⟨i, phase, hi, mem_kinds_of_mem hmem⟩

theorem mem_candidates_of_mem_phasesOf {phase : Phase} (hphase : phase ∈ phasesOf (candidates candidate registry))
    {d : Descriptor} (hd : d ∈ phase.members) : d ∈ candidates candidate registry :=
  (flatMap_members_phasesOf_perm _).mem_iff.mp (List.mem_flatMap.mpr ⟨phase, hphase, hd⟩)

/-- What a candidate outside of a forced phase needs is in earlier phases. -/
theorem at_earlier_of_needs (hkeyed : registry.Keyed) (hall : ∀ k, candidate k → (registry.descriptor? k).isSome)
    {i : Nat} {phase : Phase} (hi : (phasesOf (candidates candidate registry))[i]? = some phase)
    (hforced : phase.forced = false) {k dep : Kind} (hk : k ∈ kinds phase.members)
    (hneeds : Needs candidate registry k dep) :
    ∃ j < i, At ⟨phasesOf (candidates candidate registry)⟩ j dep := by
  obtain ⟨d, hd, rfl⟩ := mem_kinds.mp hk
  obtain ⟨-, hdep, e, he, hmem⟩ := hneeds
  have hcandidate := mem_candidates_of_mem_phasesOf (List.mem_of_getElem? hi) hd
  rw [descriptor_of_mem_candidates hkeyed hcandidate] at he
  cases he
  exact exists_earlier_phase hi hforced hd hmem ((mem_kinds_candidates hkeyed hall).mpr hdep)

theorem forced_eq_false_of_acyclic (hkeyed : registry.Keyed)
    (hall : ∀ k, candidate k → (registry.descriptor? k).isSome) (hacyclic : Acyclic (Needs candidate registry))
    {phase : Phase} (hphase : phase ∈ phasesOf (candidates candidate registry)) : phase.forced = false := by
  by_contra hforced
  have hcyclic := (exists_forced_iff _).mp ⟨phase, hphase, by simpa using hforced⟩
  rw [waitsIn_candidates hkeyed hall] at hcyclic
  exact hcyclic hacyclic

/-- Where the needs have no cycle, no candidate needs one of its own phase or of a later one. -/
theorem pairwise_not_needs (hkeyed : registry.Keyed) (hall : ∀ k, candidate k → (registry.descriptor? k).isSome)
    (hacyclic : Acyclic (Needs candidate registry)) :
    (∀ phase ∈ phasesOf (candidates candidate registry),
      ∀ k ∈ kinds phase.members, ∀ dep ∈ kinds phase.members, ¬ Needs candidate registry k dep) ∧
      (phasesOf (candidates candidate registry)).Pairwise fun earlier later =>
        ∀ k ∈ kinds earlier.members, ∀ dep ∈ kinds later.members, ¬ Needs candidate registry k dep := by
  have hneeds : ∀ earlier ∈ phasesOf (candidates candidate registry), ∀ later : Phase,
      (∀ d ∈ earlier.members, ∀ e ∈ later.members, e.kind ∉ d.dependsOn) →
        ∀ k ∈ kinds earlier.members, ∀ dep ∈ kinds later.members, ¬ Needs candidate registry k dep := by
    rintro earlier hearlier later hno _ hk _ hdep ⟨-, -, d, hd, hmem⟩
    obtain ⟨c, hc, rfl⟩ := mem_kinds.mp hk
    obtain ⟨e, he, rfl⟩ := mem_kinds.mp hdep
    rw [descriptor_of_mem_candidates hkeyed (mem_candidates_of_mem_phasesOf hearlier hc)] at hd
    exact hno c hc e he (Option.some.inj hd ▸ hmem)
  obtain ⟨hsame, hpairwise⟩ := pairwise_phasesOf fun _ => forced_eq_false_of_acyclic hkeyed hall hacyclic
  refine ⟨fun phase hphase => hneeds phase hphase phase (hsame phase hphase), ?_⟩
  exact hpairwise.imp_of_mem fun hearlier _ hno => hneeds _ hearlier _ hno

/-- A plan exists and has every candidate in a phase. A candidate outside of a forced phase has what it needs in earlier
phases. Some phase is forced exactly when the needs have a cycle, which is reported once. It is the last phase, and its
kinds are those candidates from which a chain of needs comes to a cycle. -/
theorem make_order (hregistry : registry.Reachable)
    (hall : ∀ k, candidate k → (registry.descriptor? k).isSome) :
    ∃ plan, make candidate registry = .ok plan ∧
      (∀ k, candidate k → ∃ i, plan.At i k) ∧
      (∀ (i : Nat) (phase : Phase), plan.phases[i]? = some phase → phase.forced = false →
        ∀ k ∈ kinds phase.members, ∀ dep, Needs candidate registry k dep → ∃ j < i, plan.At j dep) ∧
      ((∃ phase ∈ plan.phases, phase.forced) ↔ ¬ Acyclic (Needs candidate registry)) ∧
      ((∃ e ∈ plan.entries, e.message = forcedMessage) ↔ ¬ Acyclic (Needs candidate registry)) ∧
      plan.entries.countP (·.message = forcedMessage) ≤ 1 ∧
      (∀ (i : Nat) (phase : Phase), plan.phases[i]? = some phase → phase.forced →
        i + 1 = plan.phases.length ∧
          ∀ k, k ∈ kinds phase.members ↔ candidate k ∧ ReachesCycle (Needs candidate registry) k) := by
  have hkeyed := hregistry.keyed
  have hwaits := waitsIn_candidates hkeyed hall
  have hforced := exists_forced_iff (candidates candidate registry)
  rw [hwaits] at hforced
  refine ⟨_, make_eq_ok hall, fun k hk => at_of_candidate hkeyed hall hk, ?_, hforced, ?_, ?_, ?_⟩
  · intro i phase hi hnot k hk dep hneeds
    exact at_earlier_of_needs hkeyed hall hi hnot hk hneeds
  · have hcount := countP_entries ⟨phasesOf (candidates candidate registry)⟩
    rw [← hforced]
    simpa using (congrArg (0 < ·) hcount).to_iff
  · rw [countP_entries]
    exact countP_forced_le_one _
  · intro i phase hi hphase
    obtain ⟨hlast, hmem⟩ := forced_phase hi hphase
    rw [hwaits] at hmem
    refine ⟨hlast, fun k => (hmem k).trans ⟨fun hcycle => ⟨?_, hcycle⟩, And.right⟩⟩
    obtain ⟨_, hk, -⟩ := hcycle.exists_rel
    exact hk

/-- Two kinds that need each other, one that needs the first of them, and one that needs nothing. -/
def knot : List Descriptor :=
  [{ kind := .struts, patterns := ["*.xml"], dependsOn := [.struts2] },
   { kind := .struts2, patterns := ["*.xml"], dependsOn := [.struts] },
   { kind := .strutsAction, patterns := ["*.java"], dependsOn := [.struts, .java] },
   { kind := .jsp, patterns := ["*.jsp"] }]

theorem make_order_knot :
    ∃ registry : Registry, registry.Reachable ∧
      ∃ plan, make (fun k => (registry.descriptor? k).isSome) registry = .ok plan ∧
        (∃ i, plan.At i .strutsAction) ∧ ∃ e ∈ plan.entries, e.message = forcedMessage := by
  obtain ⟨registry, hdescribe⟩ : ∃ registry, Registry.describeAll {} knot = .ok registry := ⟨_, rfl⟩
  have hregistry : registry.Reachable := Registry.Reachable.empty.describeAll hdescribe
  cases hdescribe
  obtain ⟨plan, hplan, hcandidates, -, -, hreported, -⟩ := make_order hregistry fun _ hk => hk
  refine ⟨_, hregistry, plan, hplan, hcandidates .strutsAction rfl, hreported.mpr fun hacyclic => ?_⟩
  apply hacyclic .struts
  refine .tail (.single (b := .struts2) ?_) ?_
  · exact ⟨rfl, rfl, knot[0], rfl, by decide⟩
  · exact ⟨rfl, rfl, knot[1], rfl, by decide⟩

end RuleFlow.Plan
