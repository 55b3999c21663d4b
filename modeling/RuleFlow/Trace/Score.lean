import RuleFlow.Trace.Basic
import RuleFlow.Trace.Issue

/-!
# Scores

Completeness and confidence are numbers from 0 to 1. They are defined over any numbers that can be added, multiplied
and compared: reports take doubles, and exact arithmetic shows what rounding leaves aside. Sums are taken from left to
right.
-/

namespace RuleFlow.Score

variable {α : Type} [Add α] [Sub α] [Mul α] [Div α] [LT α] [DecidableLT α] [OfScientific α]

/-- The smaller of 1 and `x`; 1 where they cannot be compared. -/
def atMostOne (x : α) : α := if x < 1.0 then x else 1.0

/-- The number of the unit interval that is nearest to `x`; 1 where there is none. -/
def clamp (x : α) : α := if 0.0 < atMostOne x then atMostOne x else 0.0

/-- A natural number among the numbers of the score. -/
def count (n : Nat) : α := OfScientific.ofScientific n false 0

/-! ## Completeness -/

/-- What a step costs for each thing that it leaves out. -/
def stepPenalties (s : Step) : List α :=
  (if Text.isBlank s.file then [0.1] else []) ++ (if Text.isBlank s.businessLogic then [0.05] else []) ++
    (if s.dependencies.isEmpty then [0.02] else [])

/-- What an issue costs, by its kind. -/
def issuePenalties : Issue.Kind → List α
  | .missingLink => [0.2]
  | .incompleteTrace => [0.15]
  | .technologyGap => [0.1]
  | _ => []

/-- What the steps and the issues cost, in the order in which it is taken off. -/
def penalties (steps : List Step) (issues : List Issue) : List α :=
  steps.flatMap stepPenalties ++ issues.flatMap fun i => issuePenalties i.kind

/-- Nothing else than these five numbers is ever taken off. -/
theorem forall_mem_penalties {β : Type} [OfScientific β] {p : β → Prop} (hfile : p 0.1) (hlogic : p 0.05)
    (hdependencies : p 0.02) (hlink : p 0.2) (htrace : p 0.15) {steps : List Step} {issues : List Issue} :
    ∀ x ∈ penalties steps issues, p x := by
  intro x hx
  rcases List.mem_append.mp hx with hx | hx
  · obtain ⟨s, -, hs⟩ := List.mem_flatMap.mp hx
    simp only [stepPenalties, List.mem_append, List.mem_ite_nil_right, List.mem_singleton] at hs
    rcases hs with (⟨-, rfl⟩ | ⟨-, rfl⟩) | ⟨-, rfl⟩
    · exact hfile
    · exact hlogic
    · exact hdependencies
  · obtain ⟨i, -, hi⟩ := List.mem_flatMap.mp hx
    cases hkind : i.kind <;> simp only [issuePenalties, hkind, List.mem_singleton, List.not_mem_nil] at hi <;> subst hi
    · exact hlink
    · exact htrace
    · exact hfile

/-- How complete a trace is: nothing without steps, else 1 less what is missing. -/
def completeness (steps : List Step) (issues : List Issue) : α :=
  if steps.isEmpty then 0.0 else clamp ((penalties steps issues).foldl (· - ·) 1.0)

/-! ## Confidence -/

/-- The weight of a trace by its length: from 0.8 without steps up to 1 with five. -/
def lengthFactor (steps : Nat) : α := 0.8 + 0.2 * atMostOne (count steps / 5.0)

/-- How much a trace is to be trusted: the confidence of its extraction and the impacts of its issues, by its length. -/
def confidence (extraction : α) (impacts : List α) (steps : Nat) : α :=
  clamp (impacts.foldl (· + ·) extraction * lengthFactor steps)

end RuleFlow.Score
