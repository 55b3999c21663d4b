import Mathlib.Data.Finset.Card
import RuleFlow.Proofs.Lists
import RuleFlow.Trace.Rule.Sequence

/-!
# Repeated steps

A step repeats the first step of the list that has its identity, not the last one in front of it. So each identity stays
with the step that brought it, and there are as many issues as there are more steps than identities.
-/

namespace RuleFlow.Rule

variable {earlier steps : List Step}

/-! ## Positions -/

/-- The first step with the identity of `s`, which is `s` itself where there is none. -/
def firstLike (steps : List Step) (s : Step) : Step := (steps.find? (identity · = identity s)).getD s

/-- The positions of steps that share their identity with a step in front of them or with one of `earlier`. -/
def repeatPositions (earlier steps : List Step) : List (Fin steps.length) :=
  (List.finRange steps.length).filter fun k => identity (steps.get k) ∈ (earlier ++ steps.take k).map identity

theorem repeatPositions_cons (earlier : List Step) (s : Step) (rest : List Step) :
    repeatPositions earlier (s :: rest) =
      (if identity s ∈ earlier.map identity then [0] else []) ++
        (repeatPositions (earlier ++ [s]) rest).map Fin.succ := by
  have hfront : ∀ k : Fin rest.length, earlier ++ (s :: rest).take k.succ = earlier ++ [s] ++ rest.take k := by simp
  have hsplit := filter_finRange_succ fun k : Fin (rest.length + 1) =>
    identity ((s :: rest).get k) ∈ (earlier ++ (s :: rest).take k).map identity
  simp only [hfront, Fin.val_zero, List.take_zero, List.append_nil] at hsplit
  exact hsplit

theorem find?_identity_eq_none_iff {s : Step} :
    earlier.find? (identity · = identity s) = none ↔ identity s ∉ earlier.map identity := by
  simp [List.find?_eq_none]

theorem duplicatesAfter_eq (earlier steps : List Step) :
    duplicatesAfter earlier steps =
      (repeatPositions earlier steps).map fun k =>
        duplicateIssue (firstLike (earlier ++ steps) (steps.get k)) (steps.get k) := by
  induction steps generalizing earlier with
  | nil => rfl
  | cons s rest ih =>
      have hothers : earlier ++ [s] ++ rest = earlier ++ s :: rest := by simp
      rw [duplicatesAfter, repeatPositions_cons, ih, hothers, List.map_append, List.map_map]
      congr 1
      cases hfind : earlier.find? (identity · = identity s) with
      | none => rw [if_neg (find?_identity_eq_none_iff.mp hfind), List.map_nil]
      | some first =>
          have hmem : identity s ∈ earlier.map identity := by
            by_contra hnot
            simp [find?_identity_eq_none_iff.mpr hnot] at hfind
          have hfirst : firstLike (earlier ++ s :: rest) s = first := by
            rw [firstLike, List.find?_append, hfind]
            rfl
          rw [if_pos hmem, List.map_singleton]
          exact congrArg (fun f => [duplicateIssue f s]) hfirst.symm

/-! ## Numbers -/

theorem length_repeatPositions (earlier steps : List Step) :
    (repeatPositions earlier steps).length + ((earlier ++ steps).map identity).toFinset.card =
      steps.length + (earlier.map identity).toFinset.card := by
  -- a step is a repetition or has an identity that is new
  induction steps generalizing earlier with
  | nil => simp [repeatPositions]
  | cons s rest ih =>
      have hothers := ih (earlier ++ [s])
      have hidentities : ((earlier ++ [s]).map identity).toFinset =
          insert (identity s) (earlier.map identity).toFinset := by
        rw [List.map_append, List.toFinset_append, Finset.union_comm]
        rfl
      rw [List.append_assoc, List.singleton_append, hidentities] at hothers
      rw [repeatPositions_cons, List.length_append, List.length_map]
      by_cases hs : identity s ∈ earlier.map identity
      · rw [Finset.insert_eq_of_mem (List.mem_toFinset.mpr hs)] at hothers
        simp only [if_pos hs, List.length_cons, List.length_nil]
        omega
      · rw [Finset.card_insert_of_notMem (List.mem_toFinset.not.mpr hs)] at hothers
        simp only [if_neg hs, List.length_cons, List.length_nil]
        omega

/-- There is one issue for each step that repeats one in front of it, in the order of the list. It names the first step
with the same identity and then the step. So there are as many issues as there are more steps than identities, and none
exactly if all steps differ. -/
theorem duplicateSteps_repeats (steps : List Step) :
    (duplicateSteps steps).map (fun i => (i.kind, i.severity, i.steps, i.description)) =
        (repeatPositions [] steps).map (fun k =>
          (.duplicateStep, .medium, [(firstLike steps (steps.get k)).order, (steps.get k).order],
            "Duplicate step detected: " ++ (steps.get k).component)) ∧
      (duplicateSteps steps).length + (steps.map identity).toFinset.card = steps.length ∧
      (duplicateSteps steps = [] ↔ (steps.map identity).Nodup) := by
  have hissues : duplicateSteps steps = _ := duplicatesAfter_eq [] steps
  have hcount : (duplicateSteps steps).length + (steps.map identity).toFinset.card = steps.length := by
    rw [hissues, List.length_map]
    exact length_repeatPositions [] steps
  refine ⟨?_, hcount, ?_⟩
  · rw [hissues, List.map_map]
    rfl
  · have hnodup : (steps.map identity).toFinset.card = (steps.map identity).length ↔ (steps.map identity).Nodup :=
      Multiset.toFinset_card_eq_card_iff_nodup (m := (steps.map identity : Multiset (Text × Text × Text)))
    rw [← hnodup, List.length_map, ← List.length_eq_zero_iff]
    omega

/-- A third step repeats the first one, too. -/
example :
    let steps : List Step :=
      [{ order := 5, component := "A" }, { order := 7, component := "A" }, { order := 9, component := "A" }]
    (duplicateSteps steps).map (·.steps) = [[5, 7], [5, 9]] := by
  decide

end RuleFlow.Rule
