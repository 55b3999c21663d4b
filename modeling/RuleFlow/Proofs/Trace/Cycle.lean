import RuleFlow.Proofs.Trace.Search

/-!
# The rule against circular dependencies

The rule searches the relation `DependsOn`, in which the last step about a component decides. Its search ends, and it
raises an issue exactly when the relation has a cycle: one issue, about a cycle without repetitions and all steps on it.
-/

namespace RuleFlow.Rule

/-! ## The dependencies of a component -/

/-- The last step about `c` lists `d` among its dependencies. -/
def DependsOn (steps : List Step) (c d : Text) : Prop :=
  ∃ before s after, steps = before ++ s :: after ∧ s.component = c ∧ (∀ t ∈ after, t.component ≠ c) ∧
    d ∈ s.dependencies

theorem mem_dependenciesOf {steps : List Step} {c d : Text} : d ∈ dependenciesOf steps c ↔ DependsOn steps c d := by
  constructor
  · intro hd
    unfold dependenciesOf at hd
    cases hs : steps.reverse.find? (·.component = c) with
    | none => simp [hs] at hd
    | some s =>
        obtain ⟨hc, after, before, heq, hafter⟩ := List.find?_eq_some_iff_append.mp hs
        refine ⟨before.reverse, s, after.reverse, ?_, by simpa using hc, ?_, by simpa [hs] using hd⟩
        · simpa using congrArg List.reverse heq
        · intro t ht
          simpa using hafter t (List.mem_reverse.mp ht)
  · rintro ⟨before, s, after, rfl, rfl, hafter, hd⟩
    have hs : (before ++ s :: after).reverse.find? (·.component = s.component) = some s := by
      rw [List.find?_eq_some_iff_append]
      refine ⟨by simp, after.reverse, before.reverse, by simp, ?_⟩
      intro t ht
      simpa using hafter t (List.mem_reverse.mp ht)
    rw [dependenciesOf, hs]
    exact hd

theorem DependsOn.mem_components {steps : List Step} {c d : Text} (h : DependsOn steps c d) :
    c ∈ components steps := by
  obtain ⟨before, s, after, rfl, rfl, -, -⟩ := h
  simp [components]

/-! ## The end of the search -/

/-- The texts that the search can come to. -/
def reachable (steps : List Step) : Finset Text :=
  (steps.map (·.component) ++ steps.flatMap (·.dependencies)).toFinset

theorem card_reachable_le (steps : List Step) : (reachable steps).card ≤ searchFuel steps := by
  have h := List.toFinset_card_le (steps.map (·.component) ++ steps.flatMap (·.dependencies))
  simp only [List.length_append, List.length_map] at h
  simp only [reachable, searchFuel]
  omega

theorem dependenciesOf_subset (steps : List Step) (c : Text) : ∀ d ∈ dependenciesOf steps c, d ∈ reachable steps := by
  intro d hd
  obtain ⟨before, s, after, rfl, -, -, hd⟩ := mem_dependenciesOf.mp hd
  simp only [reachable, List.mem_toFinset, List.mem_append, List.mem_flatMap]
  exact Or.inr ⟨s, by simp, hd⟩

/-- What a search does with one dependency of the last component of `path`. -/
def look (dependencies : Text → List Text) (fuel : Nat) (path visited : List Text) (d : Text) :
    Except (List Text) (List Text) :=
  if !visited.contains d then visit dependencies fuel (path ++ [d]) visited d
  else if path.contains d then .error (path.dropWhile (· != d))
  else .ok visited

section

variable {dependencies : Text → List Text} {fuel : Nat} {path visited : List Text} {c d : Text}

theorem visit_succ : visit dependencies (fuel + 1) path visited c =
    (dependencies c).foldlM (look dependencies fuel path) (c :: visited) := rfl

theorem look_of_notMem (hv : d ∉ visited) :
    look dependencies fuel path visited d = visit dependencies fuel (path ++ [d]) visited d := by
  simp [look, hv]

theorem look_of_mem_path (hv : d ∈ visited) (hp : d ∈ path) :
    look dependencies fuel path visited d = .error (path.dropWhile (· != d)) := by
  simp [look, hv, hp]

theorem look_of_mem (hv : d ∈ visited) (hp : d ∉ path) : look dependencies fuel path visited d = .ok visited := by
  simp [look, hv, hp]

/-- The components of `nodes` that are left to visit become fewer as more are visited. -/
theorem card_unvisited_le {nodes : Finset Text} {visited' : List Text} (h : visited ⊆ visited') :
    (nodes \ visited'.toFinset).card ≤ (nodes \ visited.toFinset).card := by
  apply Finset.card_le_card
  apply Finset.sdiff_subset_sdiff (Finset.Subset.refl _)
  intro e he
  rw [List.mem_toFinset] at he ⊢
  exact h he

theorem card_unvisited_cons_lt {nodes : Finset Text} (hc : c ∈ nodes) (hv : c ∉ visited) :
    (nodes \ (c :: visited).toFinset).card < (nodes \ visited.toFinset).card := by
  apply Finset.card_lt_card
  refine ⟨Finset.sdiff_subset_sdiff (Finset.Subset.refl _) (by simp), ?_⟩
  intro hsub
  have hleft : c ∈ nodes \ visited.toFinset := by simp [hc, hv]
  simpa using hsub hleft

/-- Looking at dependencies one after the other follows `Search`, if entering a component does. -/
theorem search_foldlM {nodes : Finset Text} {todo : List Text}
    (henter : ∀ visited d, d ∈ nodes → d ∉ visited → (nodes \ visited.toFinset).card ≤ fuel →
      Search dependencies (path ++ [d]) (d :: visited) (dependencies d)
        (visit dependencies fuel (path ++ [d]) visited d))
    (htodo : ∀ d ∈ todo, d ∈ nodes) (hfuel : (nodes \ visited.toFinset).card ≤ fuel) :
    Search dependencies path visited todo (todo.foldlM (look dependencies fuel path) visited) := by
  induction todo generalizing visited with
  | nil => exact .done
  | cons d rest ih =>
      have hrest : ∀ e ∈ rest, e ∈ nodes := fun e he => htodo e (List.mem_cons_of_mem _ he)
      rw [List.foldlM_cons]
      by_cases hv : d ∈ visited
      · by_cases hp : d ∈ path
        · rw [look_of_mem_path hv hp]
          exact .closed hv hp
        · rw [look_of_mem hv hp]
          exact .known hv hp (ih hrest hfuel)
      · have hinner := henter visited d (htodo d List.mem_cons_self) hv hfuel
        rw [look_of_notMem hv]
        cases hd : visit dependencies fuel (path ++ [d]) visited d with
        | error cycle =>
            rw [hd] at hinner
            exact .found hv hinner
        | ok visited' =>
            rw [hd] at hinner
            have hgrown : visited ⊆ visited' := fun e he => hinner.visited_subset (List.mem_cons_of_mem _ he)
            exact .entered hv hinner (ih hrest ((card_unvisited_le hgrown).trans hfuel))

/-- Each component that is entered was not visited before, so fuel for those that are left is enough. -/
theorem search_visit {nodes : Finset Text} (hclosed : ∀ c, ∀ d ∈ dependencies c, d ∈ nodes) (hc : c ∈ nodes)
    (hv : c ∉ visited) (hfuel : (nodes \ visited.toFinset).card ≤ fuel) :
    Search dependencies path (c :: visited) (dependencies c) (visit dependencies fuel path visited c) := by
  have hless := card_unvisited_cons_lt hc hv
  induction fuel generalizing path visited c with
  | zero => omega
  | succ fuel ih =>
      rw [visit_succ]
      apply search_foldlM _ (hclosed c) (by omega)
      intro visited d hd hv hfuel
      exact ih hd hv hfuel (card_unvisited_cons_lt hd hv)

end

/-- The search for the first cycle ends. -/
theorem search_firstCycle (steps : List Step) :
    ∃ answer, Search (dependenciesOf steps) [] [] (components steps) answer ∧
      firstCycle steps = match answer with | .ok _ => none | .error cycle => some cycle := by
  have hcomponents : ∀ c ∈ components steps, c ∈ reachable steps := by
    intro c hc
    simp only [components, List.mem_eraseDups] at hc
    simp [reachable, hc]
  have hfuel : (reachable steps \ ([] : List Text).toFinset).card ≤ searchFuel steps :=
    (Finset.card_le_card Finset.sdiff_subset).trans (card_reachable_le steps)
  refine ⟨_, search_foldlM (fun visited d hd hv hfuel => search_visit (dependenciesOf_subset steps) hd hv hfuel)
    hcomponents hfuel, ?_⟩
  have henter : (fun visited component => if visited.contains component then .ok visited
      else visit (dependenciesOf steps) (searchFuel steps) [component] visited component) =
      look (dependenciesOf steps) (searchFuel steps) [] := by
    funext visited d
    by_cases hv : d ∈ visited
    · simp [look_of_mem hv, hv]
    · simp [look_of_notMem hv, hv]
  rw [← henter]
  rfl

/-! ## The issue -/

theorem flatMap_append_eq_join (separator last : Text) (ts : List Text) :
    ts.flatMap (fun t => t ++ separator) ++ last = Text.join separator (ts ++ [last]) := by
  induction ts with
  | nil => simp [Text.join]
  | cons t ts ih =>
      cases ts with
      | nil => simp [Text.join]
      | cons u us =>
          rw [List.flatMap_cons, List.append_assoc, ih]
          simp [Text.join]

/-- The rule raises the issue of the cycle that the search ends with, if it ends with one. -/
theorem circularDependencies_of_search {steps : List Step} {answer : Except (List Text) (List Text)}
    (h : Search (dependenciesOf steps) [] [] (components steps) answer) :
    circularDependencies steps = match answer with | .ok _ => [] | .error cycle => [cycleIssue steps cycle] := by
  obtain ⟨answer', h', hfirst⟩ := search_firstCycle steps
  cases h.unique h'
  cases answer <;> simp [circularDependencies, hfirst]

theorem dependsOn_eq (steps : List Step) : (fun c d => d ∈ dependenciesOf steps c) = DependsOn steps := by
  funext c d
  exact propext mem_dependenciesOf

theorem acyclic_of_search {steps : List Step} {visited : List Text}
    (h : Search (dependenciesOf steps) [] [] (components steps) (.ok visited)) : Acyclic (DependsOn steps) := by
  obtain ⟨hsettled, hcomponents⟩ := h.settled (by simp) (fun c hc => by simp at hc)
  intro c hcycle
  obtain ⟨d, hcd, -⟩ := Relation.TransGen.head'_iff.mp hcycle
  obtain ⟨hvisited, hpath⟩ := hcomponents c hcd.mem_components
  have hacc := hsettled c hvisited hpath
  simp only [mem_dependenciesOf] at hacc
  exact not_transGen_self_of_acc hacc hcycle

theorem isCycle_of_search {steps : List Step} {cycle : List Text}
    (h : Search (dependenciesOf steps) [] [] (components steps) (.error cycle)) :
    IsCycle (DependsOn steps) cycle := by
  rw [← dependsOn_eq]
  exact h.isCycle (Search.Trail.nil _ _ _)

/-- The search of the rule ends, with one answer. The rule raises no issue exactly when no component depends on itself
through others. Else the answer is a cycle, and the only issue names its components in order and concerns every step
about one of them. -/
theorem circularDependencies_issue (steps : List Step) :
    ∃ answer, Search (dependenciesOf steps) [] [] (components steps) answer ∧
      (∀ other, Search (dependenciesOf steps) [] [] (components steps) other → other = answer) ∧
      (circularDependencies steps = [] ↔ Acyclic (DependsOn steps)) ∧
      (¬ Acyclic (DependsOn steps) → ∃ cycle issue, answer = .error cycle ∧ IsCycle (DependsOn steps) cycle ∧
        circularDependencies steps = [issue] ∧ issue.kind = .circularReference ∧ issue.severity = .high ∧
        issue.description =
          "Circular dependency detected involving " ++ Text.join " -> " (cycle ++ cycle.take 1) ∧
        issue.steps = (steps.filter (·.component ∈ cycle)).map (·.order)) := by
  obtain ⟨answer, hsearch, -⟩ := search_firstCycle steps
  have hissues := circularDependencies_of_search hsearch
  refine ⟨answer, hsearch, fun other hother => hother.unique hsearch, ?_⟩
  cases answer with
  | ok visited =>
      have hacyclic := acyclic_of_search hsearch
      exact ⟨⟨fun _ => hacyclic, fun _ => hissues⟩, fun hcyclic => absurd hacyclic hcyclic⟩
  | error cycle =>
      have hcycle := isCycle_of_search hsearch
      refine ⟨⟨fun hnone => ?_, fun hacyclic => absurd hacyclic hcycle.not_acyclic⟩, fun _ => ?_⟩
      · rw [hissues] at hnone
        cases hnone
      · refine ⟨cycle, _, rfl, hcycle, hissues, rfl, rfl, ?_, ?_⟩
        · have hne := hcycle.ne_nil
          cases cycle with
          | nil => exact absurd rfl hne
          | cons c cs =>
              simp only [cycleIssue, List.append_assoc, flatMap_append_eq_join]
              rfl
        · simp [cycleIssue]

end RuleFlow.Rule
