import RuleFlow.Proofs.Keyed
import RuleFlow.Proofs.Trace.Severity

/-!
# Dependencies between steps

A step lists components as its dependencies, and steps that list each other in a circle are a closed walk. The rule
against circular dependencies looks at the last step about each component only, so it finds the closed walks of these
steps (`circularDependencies_walks`). The rule of consistency wants each dependency to be provided by an earlier step,
wherever that stands in the list (`dependencyConsistency_unprovided`), which leaves no closed walk when component names
are told apart.
-/

namespace RuleFlow.Rule

open Relation (TransGen)

/-- Of two steps among some, the first lists the component of the second. -/
def Lists (among : Step → Prop) (s t : Step) : Prop := among s ∧ among t ∧ t.component ∈ s.dependencies

/-- No later step is about the component of this one. -/
abbrev LastAbout (steps : List Step) (s : Step) : Prop := LastBy (·.component) steps s

/-- An earlier step is about a component that the dependency is part of the name of. -/
def Provided (steps : List Step) (s : Step) (dependency : Text) : Prop :=
  ∃ p ∈ steps, 1 ≤ p.order ∧ p.order < s.order ∧ dependency <:+: p.component

variable {steps : List Step} {s t : Step} {c d : Text}

/-! ## Closed walks of steps -/

theorem Lists.mono {among among' : Step → Prop} (h : ∀ s, among s → among' s) (hst : Lists among s t) :
    Lists among' s t :=
  ⟨h s hst.1, h t hst.2.1, hst.2.2⟩

theorem dependsOn_iff : DependsOn steps c d ↔ ∃ s, LastAbout steps s ∧ s.component = c ∧ d ∈ s.dependencies := by
  constructor
  · rintro ⟨before, s, after, rfl, rfl, hafter, hd⟩
    exact ⟨s, ⟨before, after, rfl, hafter⟩, rfl, hd⟩
  · rintro ⟨s, ⟨before, after, rfl, hafter⟩, rfl, hd⟩
    exact ⟨before, s, after, rfl, rfl, hafter, hd⟩

/-- A chain of components is one of the last steps about them. -/
theorem transGen_lists (h : TransGen (DependsOn steps) c d) (ht : LastAbout steps t) (hd : t.component = d) :
    ∃ s, LastAbout steps s ∧ s.component = c ∧ TransGen (Lists (LastAbout steps)) s t := by
  induction h using TransGen.head_induction_on with
  | single h =>
      obtain ⟨s, hs, hc, hmem⟩ := dependsOn_iff.mp h
      exact ⟨s, hs, hc, .single ⟨hs, ht, hd ▸ hmem⟩⟩
  | head h _ ih =>
      obtain ⟨s, hs, hc, hmem⟩ := dependsOn_iff.mp h
      obtain ⟨u, hu, rfl, hchain⟩ := ih
      exact ⟨s, hs, hc, .head ⟨hs, hu, hmem⟩ hchain⟩

/-- The components depend on each other in a circle exactly when the last steps about them list each other in one. -/
theorem acyclic_dependsOn_iff : Acyclic (DependsOn steps) ↔ Acyclic (Lists (LastAbout steps)) := by
  constructor
  · intro h s hcycle
    refine h s.component (hcycle.lift (·.component) ?_)
    rintro s t ⟨hs, -, hmem⟩
    exact dependsOn_iff.mpr ⟨s, hs, rfl, hmem⟩
  · intro h c hcycle
    obtain ⟨d, hcd, -⟩ := TransGen.head'_iff.mp hcycle
    obtain ⟨t, ht, htc, -⟩ := dependsOn_iff.mp hcd
    obtain ⟨s, hs, hsc, hchain⟩ := transGen_lists hcycle ht htc
    obtain rfl := hs.eq_of_key ht (hsc.trans htc.symm)
    exact h s hchain

theorem circularDependencies_ne_nil_iff :
    circularDependencies steps ≠ [] ↔ ∃ walk, IsClosedWalk (Lists (LastAbout steps)) walk := by
  rw [ne_eq, circularDependencies_eq_nil_iff, acyclic_dependsOn_iff, not_acyclic_iff_isClosedWalk]

/-- A closed walk is found if the last step about each of its components lists what the walk uses. -/
theorem circularDependencies_ne_nil_of_subset {walk : List Step} (h : IsClosedWalk (Lists (· ∈ steps)) walk)
    (hlast : ∀ s ∈ walk, ∀ t, LastAbout steps t → t.component = s.component → s.dependencies ⊆ t.dependencies) :
    circularDependencies steps ≠ [] := by
  rw [ne_eq, circularDependencies_eq_nil_iff]
  refine (h.map (·.component) fun s hs t hst => ?_).not_acyclic
  obtain ⟨hsteps, -, hmem⟩ := hst
  obtain ⟨u, hu, hcomponent⟩ := exists_lastBy (·.component) hsteps
  exact dependsOn_iff.mpr ⟨u, hu, hcomponent, hlast s hs u hu hcomponent hmem⟩

/-- The rule raises an issue exactly when the last steps about their components have a closed walk. So it finds closed
walks of any steps unless there are some and none of last steps. Those are found of which each step is about a component
whose last step lists at least as much. -/
theorem circularDependencies_walks (steps : List Step) :
    (circularDependencies steps ≠ [] ↔ ∃ walk, IsClosedWalk (Lists (LastAbout steps)) walk) ∧
      (((∃ walk, IsClosedWalk (Lists (· ∈ steps)) walk) → circularDependencies steps ≠ []) ↔
        ¬ ((∃ walk, IsClosedWalk (Lists (· ∈ steps)) walk) ∧ ¬ ∃ walk, IsClosedWalk (Lists (LastAbout steps)) walk)) ∧
      ∀ walk, IsClosedWalk (Lists (· ∈ steps)) walk →
        (∀ s ∈ walk, ∀ t, LastAbout steps t → t.component = s.component → s.dependencies ⊆ t.dependencies) →
          circularDependencies steps ≠ [] := by
  refine ⟨circularDependencies_ne_nil_iff, ?_, fun walk => circularDependencies_ne_nil_of_subset⟩
  rw [circularDependencies_ne_nil_iff, not_and, not_not]

/-- Steps about two components that list each other, and a later one about the first of them that lists nothing. -/
def revised : List Step :=
  [{ order := 1, component := "A", dependencies := ["B"] }, { order := 2, component := "B", dependencies := ["A"] },
   { order := 3, component := "A" }]

theorem circularDependencies_misses_revised :
    (∃ walk, IsClosedWalk (Lists (· ∈ revised)) walk) ∧ circularDependencies revised = [] := by
  refine ⟨⟨revised.take 2, by simp [revised], ?_, ?_⟩, ?_⟩
  · refine List.isChain_pair.mpr ⟨by simp [revised], by simp [revised], ?_⟩
    exact List.mem_singleton_self _
  · refine ⟨by simp [revised], by simp [revised], ?_⟩
    exact List.mem_singleton_self _
  · have hnone : firstCycle revised = none := by decide +kernel
    simp [circularDependencies, hnone]

/-! ## Dependencies that are provided -/

theorem isProvided_iff : isProvided steps s d ↔ Provided steps s d := by
  simp [isProvided, Provided, Text.occursIn_iff, and_assoc]

instance : DecidablePred (Provided steps s) := fun _ => decidable_of_iff _ isProvided_iff

theorem dependencyConsistency_eq_nil_iff :
    dependencyConsistency steps = [] ↔ ∀ s ∈ steps, ∀ d ∈ s.dependencies, Provided steps s d := by
  simp [dependencyConsistency, isProvided_iff]

/-- The dependencies that no earlier step provides, each with its step, in the order of the list. -/
def unprovided (steps : List Step) : List (Step × Text) :=
  (steps.flatMap fun s => s.dependencies.map (s, ·)).filter fun (s, d) => ¬ Provided steps s d

theorem dependencyConsistency_eq (steps : List Step) :
    dependencyConsistency steps = (unprovided steps).map fun (s, d) => brokenDependencyIssue s d := by
  have hisProvided : ∀ s d, isProvided steps s d = decide (Provided steps s d) := fun s d => by
    rw [Bool.eq_iff_iff, decide_eq_true_iff, isProvided_iff]
  simp [dependencyConsistency, unprovided, List.filter_flatMap, List.map_flatMap, List.filter_map, Function.comp_def,
    hisProvided]

theorem provided_congr {steps' : List Step} (h : steps.Perm steps') : Provided steps s d ↔ Provided steps' s d := by
  simp only [Provided, h.mem_iff]

theorem unprovided_perm {steps' : List Step} (h : steps.Perm steps') : (unprovided steps).Perm (unprovided steps') := by
  have hfilter : ∀ item : Step × Text,
      decide (¬ Provided steps item.1 item.2) = decide (¬ Provided steps' item.1 item.2) :=
    fun item => by simp only [provided_congr h]
  simp only [unprovided, hfilter]
  exact (h.flatMap_right _).filter _

/-- There is one issue for each dependency of a step that no step of the whole list with a smaller number from 1 on
provides, as often as the step lists it, in the order of the steps and then of their dependencies. Steps in another
order have the same issues in another order. -/
theorem dependencyConsistency_unprovided (steps : List Step) :
    (dependencyConsistency steps).map (fun i => (i.kind, i.severity, i.steps, i.description)) =
        (unprovided steps).map (fun (s, d) =>
          (.brokenDependency, .medium, [s.order], "Dependency '" ++ d ++ "' not found in previous steps")) ∧
      ∀ steps', steps.Perm steps' → (dependencyConsistency steps).Perm (dependencyConsistency steps') := by
  constructor
  · rw [dependencyConsistency_eq, List.map_map]
    rfl
  · intro steps' h
    rw [dependencyConsistency_eq, dependencyConsistency_eq]
    exact (unprovided_perm h).map _

/-- A step numbered 0 provides nothing, and an empty dependency is part of any name. -/
example :
    let steps : List Step :=
      [{ order := 2, dependencies := ["B", ""] }, { order := 0, component := "B" }, { order := 1, component := "A" }]
    (dependencyConsistency steps).map (·.description) = ["Dependency 'B' not found in previous steps"] := by
  decide +kernel

/-- A component name that is told apart from all others can only be provided by its own step, which is then an earlier
one. -/
theorem order_lt_of_lists (hdistinct : (steps.map (·.component)).Nodup)
    (hapart : ∀ s ∈ steps, ∀ t ∈ steps, s.component ≠ t.component → ¬ s.component <:+: t.component)
    (hconsistent : dependencyConsistency steps = []) (h : Lists (· ∈ steps) s t) : t.order < s.order := by
  obtain ⟨hs, ht, hmem⟩ := h
  obtain ⟨p, hp, -, hlt, hpart⟩ := dependencyConsistency_eq_nil_iff.mp hconsistent s hs _ hmem
  have hname : t.component = p.component := by
    by_contra hne
    exact hapart t ht p hp hne hpart
  obtain rfl := List.inj_on_of_nodup_map hdistinct ht hp hname
  exact hlt

/-- Where each component has one step, and no name of a component is part of another one, consistent steps have no
circular dependencies. -/
theorem circularDependencies_of_consistent (hdistinct : (steps.map (·.component)).Nodup)
    (hapart : ∀ s ∈ steps, ∀ t ∈ steps, s.component ≠ t.component → ¬ s.component <:+: t.component)
    (hconsistent : dependencyConsistency steps = []) : circularDependencies steps = [] := by
  rw [circularDependencies_eq_nil_iff, acyclic_dependsOn_iff]
  refine acyclic_of_lt Step.order fun s t h => ?_
  exact order_lt_of_lists hdistinct hapart hconsistent (h.mono fun _ => LastBy.mem)

theorem circularDependencies_of_consistent_login :
    let steps : List Step :=
      [{ order := 1, component := "LoginAction" },
       { order := 2, component := "AuthService", dependencies := ["LoginAction"] },
       { order := 3, component := "UserDao", dependencies := ["Auth", "Login"] }]
    (steps.map (·.component)).Nodup ∧
      (∀ s ∈ steps, ∀ t ∈ steps, s.component ≠ t.component → ¬ s.component <:+: t.component) ∧
      dependencyConsistency steps = [] ∧ circularDependencies steps = [] := by
  intro steps
  have hdistinct : (steps.map (·.component)).Nodup := by decide +kernel
  have hapart : ∀ s ∈ steps, ∀ t ∈ steps, s.component ≠ t.component → ¬ s.component <:+: t.component := by
    decide +kernel
  have hconsistent : dependencyConsistency steps = [] := List.isEmpty_iff.mp (by decide +kernel)
  exact ⟨hdistinct, hapart, hconsistent, circularDependencies_of_consistent hdistinct hapart hconsistent⟩

/-- Steps that come back to a component can be consistent and circular. -/
example :
    let steps : List Step :=
      [{ order := 1, component := "A" }, { order := 3, component := "B", dependencies := ["A"] },
       { order := 5, component := "A", dependencies := ["B"] }]
    (dependencyConsistency steps).isEmpty ∧ ¬ (circularDependencies steps).isEmpty := by
  decide +kernel

end RuleFlow.Rule
