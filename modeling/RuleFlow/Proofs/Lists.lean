import Mathlib.Data.List.FinRange
import Mathlib.Data.List.Forall2
import Mathlib.Data.List.Perm.Lattice

/-!
# Positions, partners, pieces and groups in lists
-/

namespace RuleFlow

/-! ## Positions -/

theorem filter_finRange_succ {n : Nat} (p : Fin (n + 1) → Prop) [DecidablePred p] :
    (List.finRange (n + 1)).filter (p ·) =
      (if p 0 then [0] else []) ++ ((List.finRange n).filter (p ·.succ)).map Fin.succ := by
  rw [List.finRange_succ, List.filter_cons, List.filter_map]
  by_cases h : p 0
  · simp [h, Function.comp_def]
  · simp [h, Function.comp_def]

/-! ## Partners -/

theorem exists_mem_of_forall₂ {α β : Type} {R : α → β → Prop} {xs : List α} {ys : List β} (h : List.Forall₂ R xs ys)
    {x : α} (hx : x ∈ xs) : ∃ y ∈ ys, R x y := by
  induction h with
  | nil => cases hx
  | cons hxy _ ih =>
      rcases List.mem_cons.mp hx with rfl | hx
      · exact ⟨_, List.mem_cons_self, hxy⟩
      · obtain ⟨y, hy, hR⟩ := ih hx
        exact ⟨y, List.mem_cons_of_mem _ hy, hR⟩

/-! ## Pieces -/

/-- What stands between separators holds none. -/
theorem notMem_of_mem_splitOn {α : Type} [DecidableEq α] {separator : α} {l piece : List α}
    (h : piece ∈ l.splitOn separator) :
    separator ∉ piece := by
  induction l generalizing piece with
  | nil =>
      obtain rfl : piece = [] := by simpa using h
      exact List.not_mem_nil
  | cons a l ih =>
      rw [List.splitOn_cons_eq_if_modifyHead] at h
      split at h
      · rcases List.mem_cons.mp h with rfl | h
        · exact List.not_mem_nil
        · exact ih h
      · rename_i ha
        cases hsplit : l.splitOn separator with
        | nil => exact absurd hsplit (List.splitOn_ne_nil _ _)
        | cons first others =>
            rw [hsplit, List.modifyHead_cons] at h
            rcases List.mem_cons.mp h with rfl | h
            · intro hmem
              rcases List.mem_cons.mp hmem with rfl | hmem
              · exact ha (by simp)
              · exact ih (hsplit ▸ List.mem_cons_self) hmem
            · exact ih (hsplit ▸ List.mem_cons_of_mem _ h)

/-! ## Groups -/

variable {α β : Type} [DecidableEq β]

/-- Put into groups by a key, one group for each of some different keys, exactly the items with these keys are there. -/
theorem flatMap_filter_perm (key : α → β) {keys : List β} (hkeys : keys.Nodup) (items : List α) :
    (keys.flatMap fun k => items.filter (key · = k)).Perm (items.filter (key · ∈ keys)) := by
  induction keys with
  | nil => simp
  | cons k keys ih =>
      obtain ⟨hk, hkeys⟩ := List.nodup_cons.mp hkeys
      have hown : items.filter (key · = k) = (items.filter (key · ∈ k :: keys)).filter (key · = k) := by
        rw [List.filter_filter]
        apply List.filter_congr
        intro x _
        by_cases hx : key x = k <;> simp [hx]
      have hrest : items.filter (key · ∈ keys) =
          (items.filter (key · ∈ k :: keys)).filter fun x => !decide (key x = k) := by
        rw [List.filter_filter]
        apply List.filter_congr
        intro x _
        by_cases hx : key x = k <;> simp [hx, hk]
      rw [List.flatMap_cons]
      refine ((ih hkeys).append_left _).trans ?_
      rw [hrest, hown]
      exact List.filter_append_perm _ _

/-- Nothing is lost when every item has one of the keys. -/
theorem flatMap_filter_perm_self (key : α → β) {keys : List β} (hkeys : keys.Nodup) {items : List α}
    (hall : ∀ x ∈ items, key x ∈ keys) : (keys.flatMap fun k => items.filter (key · = k)).Perm items := by
  have hperm := flatMap_filter_perm key hkeys items
  rwa [List.filter_eq_self.mpr fun x hx => decide_eq_true (hall x hx)] at hperm

end RuleFlow
