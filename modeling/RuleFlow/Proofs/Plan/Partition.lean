import RuleFlow.Proofs.Plan.Order

/-!
# A plan is a partition

A plan exists exactly when every candidate has a descriptor. Its phases hold each candidate once and nothing else, none
of them is empty, and each starts its members by priority and, where priorities are equal, in the order of kinds
(`Plan.Partitions`).
-/

namespace RuleFlow

namespace Parser

/-- The position of a priority in the order. -/
def Priority.rank : Priority → Nat
  | high => 0
  | medium => 1
  | low => 2

/-- By priority first, by kind second. -/
def Descriptor.Precedes (a b : Descriptor) : Prop :=
  a.priority.rank < b.priority.rank ∨ a.priority = b.priority ∧ a.kind.rank < b.kind.rank

end Parser

namespace Plan

open RuleFlow.Parser (Kind Priority Descriptor Registry)

/-- Each candidate is in one phase, with the descriptor that the registry has for it, and nothing else is in any. No
phase is empty, so that there are no more phases than candidates, and each one is sorted. -/
structure Partitions (p : Plan) (candidate : Kind → Bool) (registry : Registry) : Prop where
  once : ∀ k, candidate k → ∃! i : Nat, ∃ phase ∈ p.phases[i]?, k ∈ kinds phase.ordered
  only : ∀ phase ∈ p.phases, ∀ d ∈ phase.ordered, candidate d.kind ∧ registry.descriptor? d.kind = some d
  nonempty : ∀ phase ∈ p.phases, phase.ordered ≠ []
  size : p.size = (Kind.all.filter candidate).length
  length_le : p.phases.length ≤ (Kind.all.filter candidate).length
  sorted : ∀ phase ∈ p.phases, phase.ordered.Pairwise Descriptor.Precedes

variable {candidate : Kind → Bool} {registry : Registry} {ds : List Descriptor} {phase : Phase} {k : Kind}

/-! ## Missing descriptors -/

theorem mapM_descriptor_of_find? {ks : List Kind} (h : ks.find? (fun k => (registry.descriptor? k).isNone) = some k) :
    ks.mapM registry.descriptor = .error (.unknownDescriptor k registry.described) := by
  induction ks with
  | nil => cases h
  | cons j ks ih =>
      rw [List.mapM_cons]
      cases hj : registry.descriptor? j with
      | none =>
          have hfirst : j = k := by simpa [List.find?_cons, hj] using h
          rw [Registry.descriptor, hj, hfirst]
          rfl
      | some d =>
          have hrest : ks.find? (fun k => (registry.descriptor? k).isNone) = some k := by
            simpa [List.find?_cons, hj] using h
          rw [Registry.descriptor, hj, ih hrest]
          rfl

/-- The first candidate without a descriptor is the reason why there is no plan. -/
theorem make_eq_error (h : (Kind.all.filter candidate).find? (fun k => (registry.descriptor? k).isNone) = some k) :
    make candidate registry = .error (.unknownDescriptor k registry.described) := by
  rw [make, mapM_descriptor_of_find? h]
  rfl

/-! ## The order in a phase -/

theorem mem_ordered {d : Descriptor} : d ∈ phase.ordered ↔ d ∈ phase.members := (ordered_perm phase).mem_iff

theorem mem_kinds_ordered : k ∈ kinds phase.ordered ↔ k ∈ kinds phase.members := ((ordered_perm phase).map _).mem_iff

theorem pairwise_ordered (h : phase.members.Pairwise (·.kind.rank < ·.kind.rank)) :
    phase.ordered.Pairwise Descriptor.Precedes := by
  have hpriorities : Priority.all.Pairwise (·.rank < ·.rank) := by decide
  rw [Phase.ordered, List.pairwise_flatMap]
  constructor
  · intro priority _
    refine (h.filter _).imp_of_mem fun {a b} ha hb hab => ?_
    simp only [List.mem_filter, decide_eq_true_eq] at ha hb
    exact .inr ⟨ha.2.trans hb.2.symm, hab⟩
  · refine hpriorities.imp fun {p q} hpq a ha b hb => ?_
    simp only [List.mem_filter, decide_eq_true_eq] at ha hb
    exact .inl (by rwa [ha.2, hb.2])

/-! ## Members of phases -/

theorem members_sublist (h : phase ∈ phasesOf ds) : phase.members.Sublist ds := by
  induction ds using phasesOf.induct with
  | case1 => simp at h
  | case2 ds hne hstuck =>
      rw [phasesOf_stuck hne hstuck, List.mem_singleton] at h
      rw [h]
  | case3 ds hne hready ih =>
      rw [phasesOf_ready hne hready] at h
      rcases List.mem_cons.mp h with rfl | h
      · exact List.filter_sublist
      · exact (ih h).trans List.filter_sublist

theorem members_ne_nil (h : phase ∈ phasesOf ds) : phase.members ≠ [] := by
  induction ds using phasesOf.induct with
  | case1 => simp at h
  | case2 ds hne hstuck =>
      rw [phasesOf_stuck hne hstuck, List.mem_singleton] at h
      rwa [h]
  | case3 ds hne hready ih =>
      rw [phasesOf_ready hne hready] at h
      rcases List.mem_cons.mp h with rfl | h
      · exact hready
      · exact ih h

/-- Descriptors of different kinds are in one phase each. -/
theorem eq_of_mem_phases (hnodup : (kinds ds).Nodup) {i j : Nat} {earlier later : Phase}
    (hi : (phasesOf ds)[i]? = some earlier) (hj : (phasesOf ds)[j]? = some later) (hearlier : k ∈ kinds earlier.members)
    (hlater : k ∈ kinds later.members) : i = j := by
  have hkinds : ((phasesOf ds).flatMap fun phase => kinds phase.members).Nodup := by
    have hperm := (flatMap_members_phasesOf_perm ds).map (·.kind)
    rw [List.map_flatMap] at hperm
    exact hperm.nodup_iff.mpr hnodup
  have hdisjoint := List.pairwise_iff_getElem.mp (List.nodup_flatMap.mp hkinds).2
  obtain ⟨hilt, rfl⟩ := List.getElem?_eq_some_iff.mp hi
  obtain ⟨hjlt, rfl⟩ := List.getElem?_eq_some_iff.mp hj
  rcases Nat.lt_trichotomy i j with hlt | heq | hgt
  · exact absurd hlater (hdisjoint i j hilt hjlt hlt hearlier)
  · exact heq
  · exact absurd hearlier (hdisjoint j i hjlt hilt hgt hlater)

theorem length_le_length_flatMap {phases : List Phase} (h : ∀ phase ∈ phases, phase.members ≠ []) :
    phases.length ≤ (phases.flatMap (·.members)).length := by
  induction phases with
  | nil => rfl
  | cons phase phases ih =>
      have hphase := List.length_pos_iff.mpr (h phase List.mem_cons_self)
      have hrest := ih fun p hp => h p (List.mem_cons_of_mem _ hp)
      rw [List.flatMap_cons, List.length_append, List.length_cons]
      omega

/-! ## Plans -/

theorem pairwise_rank_candidates (hkeyed : registry.Keyed) :
    (candidates candidate registry).Pairwise (·.kind.rank < ·.kind.rank) := by
  have hall : Kind.all.Pairwise (·.rank < ·.rank) := by decide
  rw [candidates, List.pairwise_filterMap]
  refine (hall.filter candidate).imp fun {j k} hjk d hd e he => ?_
  rwa [hkeyed j d hd, hkeyed k e he]

theorem nodup_kinds_candidates (hkeyed : registry.Keyed)
    (hall : ∀ k, candidate k → (registry.descriptor? k).isSome) : (kinds (candidates candidate registry)).Nodup := by
  rw [kinds_candidates hkeyed hall]
  exact Kind.nodup_all.filter _

theorem size_phasesOf (ds : List Descriptor) : size ⟨phasesOf ds⟩ = (kinds ds).length := by
  rw [size, (flatMap_members_phasesOf_perm ds).length_eq, kinds, List.length_map]

theorem partitions_phasesOf (hkeyed : registry.Keyed) (hall : ∀ k, candidate k → (registry.descriptor? k).isSome) :
    Partitions ⟨phasesOf (candidates candidate registry)⟩ candidate registry := by
  have hsize := size_phasesOf (candidates candidate registry)
  rw [kinds_candidates hkeyed hall] at hsize
  refine ⟨fun k hk => ?_, fun phase hphase d hd => ?_, fun phase hphase => ?_, hsize, ?_, fun phase hphase => ?_⟩
  · obtain ⟨i, phase, hi, hmem⟩ := at_of_candidate hkeyed hall hk
    refine ⟨i, ⟨phase, hi, mem_kinds_ordered.mpr hmem⟩, ?_⟩
    rintro j ⟨other, hj, hother⟩
    exact eq_of_mem_phases (nodup_kinds_candidates hkeyed hall) hj hi (mem_kinds_ordered.mp hother) hmem
  · have hcandidate := mem_candidates_of_mem_phasesOf hphase (mem_ordered.mp hd)
    exact ⟨(mem_kinds_candidates hkeyed hall).mp (mem_kinds_of_mem hcandidate),
      descriptor_of_mem_candidates hkeyed hcandidate⟩
  · intro hempty
    have hperm := ordered_perm phase
    rw [hempty] at hperm
    exact members_ne_nil hphase hperm.nil_eq.symm
  · exact (length_le_length_flatMap fun phase hphase => members_ne_nil hphase).trans_eq hsize
  · exact pairwise_ordered ((pairwise_rank_candidates hkeyed).sublist (members_sublist hphase))

/-- There is no plan exactly when some candidate has no descriptor, and the error then names the first one in the order
of kinds. Else there is a plan, and its phases are a partition of the candidates. -/
theorem make_partitions (hregistry : registry.Reachable) (candidate : Kind → Bool) :
    ((∃ e, make candidate registry = .error e) ↔ ∃ k, candidate k ∧ registry.descriptor? k = none) ∧
      (∀ e, make candidate registry = .error e → ∃ k, e = .unknownDescriptor k registry.described ∧
        (Kind.all.filter candidate).find? (fun k => (registry.descriptor? k).isNone) = some k) ∧
      ((∀ k, candidate k → (registry.descriptor? k).isSome) →
        ∃ plan, make candidate registry = .ok plan ∧ plan.Partitions candidate registry) := by
  have hkeyed := hregistry.keyed
  cases hfirst : (Kind.all.filter candidate).find? (fun k => (registry.descriptor? k).isNone) with
  | some k =>
      have herror := make_eq_error hfirst
      have hnone : registry.descriptor? k = none := by simpa using List.find?_some hfirst
      have hk : candidate k := (List.mem_filter.mp (List.mem_of_find?_eq_some hfirst)).2
      refine ⟨iff_of_true ⟨_, herror⟩ ⟨k, hk, hnone⟩, ?_, fun hall => ?_⟩
      · intro e he
        rw [herror] at he
        exact ⟨k, (Except.error.inj he).symm, rfl⟩
      · have hsome := hall k hk
        rw [hnone] at hsome
        cases hsome
  | none =>
      have hall : ∀ k, candidate k → (registry.descriptor? k).isSome := by
        simpa [List.find?_eq_none, Kind.mem_all, Option.isSome_iff_ne_none] using hfirst
      have hok := make_eq_ok hall
      have hno : ∀ e, make candidate registry ≠ .error e := by simp [hok]
      refine ⟨iff_of_false (by simpa using hno) ?_, fun e he => absurd he (hno e), fun _ => ?_⟩
      · rintro ⟨k, hk, hnone⟩
        simpa [hnone] using hall k hk
      · exact ⟨_, hok, partitions_phasesOf hkeyed hall⟩

/-- The default descriptors lack one kind. -/
theorem make_partitions_defaults :
    (∃ e, make (fun _ => true) Registry.withDefaults = .error e) ∧
      ∃ plan, make (· ≠ .java) Registry.withDefaults = .ok plan ∧
        plan.Partitions (· ≠ .java) Registry.withDefaults := by
  obtain ⟨hmissing, -, -⟩ := make_partitions Registry.Reachable.defaults fun _ => true
  obtain ⟨-, -, hplan⟩ := make_partitions Registry.Reachable.defaults (· ≠ .java)
  refine ⟨hmissing.mpr ⟨.java, rfl, rfl⟩, hplan fun k hk => ?_⟩
  cases k with
  | java => simp at hk
  | jsp | struts | struts2 | strutsAction | corba | python => rfl

end Plan

end RuleFlow
