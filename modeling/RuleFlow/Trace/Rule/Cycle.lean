import RuleFlow.Trace.Basic
import RuleFlow.Trace.Issue

/-!
# Circular dependencies

The dependencies of a component are those of the last step about it. `firstCycle` searches them depth first, component
by component, and stops at the first dependency that leads back to a component on the way to it.
-/

namespace RuleFlow.Rule

/-- The dependencies of the last step about the component. -/
def dependenciesOf (steps : List Step) (component : Text) : List Text :=
  (steps.reverse.find? (·.component = component)).elim [] (·.dependencies)

/-- The components in the order in which they first appear. -/
def components (steps : List Step) : List Text := (steps.map (·.component)).eraseDups

/-- Searches from the last component of `path`, which leads there from where the search began. The answer is a cycle,
or the components visited up to then. Each component that is entered uses up one unit of `fuel`. -/
def visit (dependencies : Text → List Text) : (fuel : Nat) → (path visited : List Text) → (component : Text) →
    Except (List Text) (List Text)
  | 0, _, visited, _ => .ok visited
  | fuel + 1, path, visited, component =>
    List.foldlM
      (fun visited d =>
        if !visited.contains d then visit dependencies fuel (path ++ [d]) visited d
        else if path.contains d then .error (path.dropWhile (· != d))
        else .ok visited)
      (component :: visited) (dependencies component)

/-- More than the number of components that a search can enter. -/
def searchFuel (steps : List Step) : Nat := steps.length + (steps.flatMap (·.dependencies)).length + 1

/-- The first cycle that the search meets, each component once and each followed by one of its dependencies. -/
def firstCycle (steps : List Step) : Option (List Text) :=
  let enter (visited : List Text) (component : Text) :=
    if visited.contains component then .ok visited
    else visit (dependenciesOf steps) (searchFuel steps) [component] visited component
  match (components steps).foldlM enter [] with
  | .ok _ => none
  | .error cycle => some cycle

def cycleIssue (steps : List Step) (cycle : List Text) : Issue where
  kind := .circularReference
  severity := .high
  description := "Circular dependency detected involving " ++ cycle.flatMap (fun c => c ++ (" -> " : Text)) ++
    cycle.headD []
  steps := (steps.filter (cycle.contains ·.component)).map (·.order)
  fix := some "Review and resolve circular dependencies"

def circularDependencies (steps : List Step) : List Issue :=
  (firstCycle steps).toList.map (cycleIssue steps)

end RuleFlow.Rule
