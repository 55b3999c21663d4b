import RuleFlow.Plan
import RuleFlow.Proofs.Lists
import RuleFlow.Proofs.Parser.Registry
import RuleFlow.Proofs.Relation

/-!
# Phases

The phases of descriptors hold each descriptor once. A phase that is not forced waits for earlier phases only, and the
forced phase, always the last one, holds the kinds whose dependencies come to a cycle.
-/

namespace RuleFlow.Plan

open RuleFlow.Parser (Kind Descriptor Registry)

/-- The kinds of descriptors, in order. -/
def kinds (ds : List Descriptor) : List Kind := ds.map (·.kind)

/-- Among the descriptors, one of kind `k` depends on the kind `dep` of another one, or on its own. -/
def WaitsIn (ds : List Descriptor) (k dep : Kind) : Prop :=
  dep ∈ kinds ds ∧ ∃ d ∈ ds, d.kind = k ∧ dep ∈ d.dependsOn

variable {ds : List Descriptor} {d : Descriptor} {k dep : Kind} {i : Nat} {phase : Phase}

theorem mem_kinds : k ∈ kinds ds ↔ ∃ d ∈ ds, d.kind = k := List.mem_map

theorem mem_kinds_of_mem (h : d ∈ ds) : d.kind ∈ kinds ds := List.mem_map_of_mem h

/-! ## One phase -/

theorem isReady_iff {remaining : List Kind} : isReady remaining d ↔ ∀ dep ∈ d.dependsOn, dep ∉ remaining := by
  simp [isReady]

theorem mem_ready : d ∈ ready ds ↔ d ∈ ds ∧ ∀ dep ∈ d.dependsOn, dep ∉ kinds ds := by
  simp [ready, kinds, isReady_iff]

theorem mem_waiting : d ∈ waiting ds ↔ d ∈ ds ∧ ∃ dep ∈ d.dependsOn, dep ∈ kinds ds := by
  simp [waiting, kinds, isReady]

theorem ready_append_waiting_perm (ds : List Descriptor) : (ready ds ++ waiting ds).Perm ds := by
  exact List.filter_append_perm _ ds

theorem mem_kinds_ready_or_waiting (h : k ∈ kinds ds) : k ∈ kinds (ready ds) ∨ k ∈ kinds (waiting ds) := by
  have hperm := (ready_append_waiting_perm ds).map (·.kind)
  rw [List.map_append] at hperm
  exact List.mem_append.mp (hperm.mem_iff.mpr h)

theorem kinds_waiting_subset (ds : List Descriptor) : kinds (waiting ds) ⊆ kinds ds :=
  List.map_subset _ List.filter_sublist.subset

/-- A descriptor of a kind that others are waited for is waiting itself. -/
theorem WaitsIn.mem_waiting (h : WaitsIn ds k dep) : k ∈ kinds (waiting ds) := by
  obtain ⟨hdep, d, hd, rfl, hmem⟩ := h
  exact mem_kinds_of_mem (Plan.mem_waiting.mpr ⟨hd, dep, hmem, hdep⟩)

theorem exists_waitsIn_of_mem_waiting (h : k ∈ kinds (waiting ds)) : ∃ dep, WaitsIn ds k dep := by
  obtain ⟨d, hd, rfl⟩ := mem_kinds.mp h
  obtain ⟨hd, dep, hmem, hdep⟩ := Plan.mem_waiting.mp hd
  exact ⟨dep, hdep, d, hd, rfl, hmem⟩

theorem WaitsIn.of_waiting (h : WaitsIn (waiting ds) k dep) : WaitsIn ds k dep := by
  obtain ⟨hdep, d, hd, hk, hmem⟩ := h
  exact ⟨kinds_waiting_subset ds hdep, d, (Plan.mem_waiting.mp hd).1, hk, hmem⟩

/-- A phase that is ready takes away no kind on a cycle. -/
theorem reachesCycle_waiting : ReachesCycle (WaitsIn (waiting ds)) k ↔ ReachesCycle (WaitsIn ds) k := by
  constructor
  · exact ReachesCycle.mono fun _ _ => WaitsIn.of_waiting
  · apply ReachesCycle.restrict
    rintro x y z ⟨hy, d, hd, hx, hmem⟩ hyz
    exact ⟨hyz.mem_waiting, d, Plan.mem_waiting.mpr ⟨hd, y, hmem, hy⟩, hx, hmem⟩

/-- Where no descriptor is ready, each kind comes to a cycle. -/
theorem reachesCycle_of_stuck (hstuck : ready ds = []) (hk : k ∈ kinds ds) : ReachesCycle (WaitsIn ds) k := by
  apply reachesCycle_of_forall_exists _ hk
  intro k hk
  obtain ⟨d, hd, rfl⟩ := mem_kinds.mp hk
  have hnot : d ∉ ready ds := by simp [hstuck]
  rw [mem_ready, not_and] at hnot
  obtain ⟨dep, hmem, hdep⟩ : ∃ dep ∈ d.dependsOn, dep ∈ kinds ds := by simpa using hnot hd
  exact ⟨dep, hdep, hdep, d, hd, rfl, hmem⟩

theorem mem_kinds_of_reachesCycle (h : ReachesCycle (WaitsIn ds) k) : k ∈ kinds ds := by
  obtain ⟨_, -, d, hd, rfl, -⟩ := h.exists_rel
  exact mem_kinds_of_mem hd

theorem ordered_perm (phase : Phase) : phase.ordered.Perm phase.members := by
  have hall : ∀ priority : Parser.Priority, priority ∈ Parser.Priority.all := by
    intro priority
    cases priority <;> decide
  exact flatMap_filter_perm_self Descriptor.priority (by decide) fun d _ => hall d.priority

/-! ## All phases -/

@[simp] theorem phasesOf_nil : phasesOf [] = [] := by
  simp [phasesOf]

theorem phasesOf_stuck (hne : ds ≠ []) (hstuck : ready ds = []) :
    phasesOf ds = [{ members := ds, forced := true }] := by
  rw [phasesOf, if_neg hne, dif_pos hstuck]

theorem phasesOf_ready (hne : ds ≠ []) (hready : ready ds ≠ []) :
    phasesOf ds = { members := ready ds } :: phasesOf (waiting ds) := by
  rw [phasesOf, if_neg hne, dif_neg hready]

/-- Each descriptor is in one phase, and no phase has others. -/
theorem flatMap_members_phasesOf_perm (ds : List Descriptor) : ((phasesOf ds).flatMap (·.members)).Perm ds := by
  induction ds using phasesOf.induct with
  | case1 => simp
  | case2 ds hne hstuck => simp [phasesOf_stuck hne hstuck]
  | case3 ds hne hready ih =>
      rw [phasesOf_ready hne hready, List.flatMap_cons]
      exact (ih.append_left _).trans (ready_append_waiting_perm ds)

/-- A descriptor of a phase that is not forced depends on kinds of earlier phases only. -/
theorem exists_earlier_phase (hi : (phasesOf ds)[i]? = some phase) (hforced : phase.forced = false)
    (hd : d ∈ phase.members) (hmem : dep ∈ d.dependsOn) (hdep : dep ∈ kinds ds) :
    ∃ j < i, ∃ earlier, (phasesOf ds)[j]? = some earlier ∧ dep ∈ kinds earlier.members := by
  induction ds using phasesOf.induct generalizing i with
  | case1 => simp at hi
  | case2 ds hne hstuck =>
      rw [phasesOf_stuck hne hstuck, List.getElem?_singleton] at hi
      split at hi
      · cases hi
        cases hforced
      · cases hi
  | case3 ds hne hready ih =>
      rw [phasesOf_ready hne hready] at hi ⊢
      cases i with
      | zero =>
          cases hi
          exact absurd hdep ((mem_ready.mp hd).2 dep hmem)
      | succ i =>
          rw [List.getElem?_cons_succ] at hi
          rcases mem_kinds_ready_or_waiting hdep with hearlier | hwaiting
          · exact ⟨0, by omega, _, rfl, hearlier⟩
          · obtain ⟨j, hj, earlier, hearlier, hmem⟩ := ih hi hwaiting
            exact ⟨j + 1, by omega, earlier, hearlier, hmem⟩

/-- Without a forced phase no member of a phase depends on one of the same phase or of a later one. -/
theorem pairwise_phasesOf (hforced : ∀ phase ∈ phasesOf ds, phase.forced = false) :
    (∀ phase ∈ phasesOf ds, ∀ d ∈ phase.members, ∀ e ∈ phase.members, e.kind ∉ d.dependsOn) ∧
      (phasesOf ds).Pairwise fun earlier later => ∀ d ∈ earlier.members, ∀ e ∈ later.members, e.kind ∉ d.dependsOn := by
  induction ds using phasesOf.induct with
  | case1 => simp
  | case2 ds hne hstuck =>
      rw [phasesOf_stuck hne hstuck] at hforced
      cases hforced _ List.mem_cons_self
  | case3 ds hne hready ih =>
      rw [phasesOf_ready hne hready] at hforced ⊢
      have hfirst : ∀ d ∈ ready ds, ∀ e ∈ ds, e.kind ∉ d.dependsOn :=
        fun d hd e he hmem => (mem_ready.mp hd).2 _ hmem (mem_kinds_of_mem he)
      have hlater : ∀ phase ∈ phasesOf (waiting ds), ∀ e ∈ phase.members, e ∈ ds := by
        intro phase hphase e he
        have hwaiting := (flatMap_members_phasesOf_perm _).mem_iff.mp (List.mem_flatMap.mpr ⟨phase, hphase, he⟩)
        exact (mem_waiting.mp hwaiting).1
      obtain ⟨hsame, hpairwise⟩ := ih fun phase hphase => hforced phase (List.mem_cons_of_mem _ hphase)
      refine ⟨?_, List.pairwise_cons.mpr ⟨?_, hpairwise⟩⟩
      · rintro phase hphase
        rcases List.mem_cons.mp hphase with rfl | hphase
        · exact fun d hd e he => hfirst d hd e (mem_ready.mp he).1
        · exact hsame phase hphase
      · exact fun phase hphase d hd e he => hfirst d hd e (hlater phase hphase e he)

/-- There is a forced phase exactly when the dependencies have a cycle. -/
theorem exists_forced_iff (ds : List Descriptor) :
    (∃ phase ∈ phasesOf ds, phase.forced) ↔ ¬ Acyclic (WaitsIn ds) := by
  rw [not_acyclic_iff]
  induction ds using phasesOf.induct with
  | case1 =>
      simp only [phasesOf_nil, List.not_mem_nil, false_and, exists_false, false_iff]
      rintro ⟨k, h⟩
      simpa [kinds] using mem_kinds_of_reachesCycle h
  | case2 ds hne hstuck =>
      obtain ⟨d, hd⟩ := List.exists_mem_of_ne_nil _ hne
      rw [phasesOf_stuck hne hstuck]
      exact ⟨fun _ => ⟨d.kind, reachesCycle_of_stuck hstuck (mem_kinds_of_mem hd)⟩,
        fun _ => ⟨_, List.mem_singleton_self _, rfl⟩⟩
  | case3 ds hne hready ih =>
      simp only [reachesCycle_waiting] at ih
      rw [← ih, phasesOf_ready hne hready]
      simp

/-- The forced phase comes last and has the kinds that come to a cycle. -/
theorem forced_phase (hi : (phasesOf ds)[i]? = some phase) (hforced : phase.forced) :
    i + 1 = (phasesOf ds).length ∧ ∀ k, k ∈ kinds phase.members ↔ ReachesCycle (WaitsIn ds) k := by
  induction ds using phasesOf.induct generalizing i with
  | case1 => simp at hi
  | case2 ds hne hstuck =>
      rw [phasesOf_stuck hne hstuck, List.getElem?_singleton] at hi
      split at hi
      · rename_i hzero
        cases hi
        refine ⟨by simp [phasesOf_stuck hne hstuck, hzero], fun k => ?_⟩
        exact ⟨reachesCycle_of_stuck hstuck, mem_kinds_of_reachesCycle⟩
      · cases hi
  | case3 ds hne hready ih =>
      rw [phasesOf_ready hne hready] at hi ⊢
      cases i with
      | zero =>
          cases hi
          cases hforced
      | succ i =>
          rw [List.getElem?_cons_succ] at hi
          obtain ⟨hlast, hmem⟩ := ih hi
          exact ⟨by simp [hlast], fun k => (hmem k).trans reachesCycle_waiting⟩

end RuleFlow.Plan
