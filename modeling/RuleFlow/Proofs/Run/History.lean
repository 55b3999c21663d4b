import RuleFlow.Run.History

/-!
# Histories that can come about

A history has room for a record and never more records than room. A further record comes last, and only in a full
history the oldest one goes.
-/

namespace RuleFlow.Run.History

/-- There is room for a record, and no more records than room. -/
structure Fits (h : History) : Prop where
  capacity_pos : 0 < h.capacity
  length_le : h.records.length ≤ h.capacity

theorem fits_ofCapacity {capacity : Nat} {h : History} (hh : ofCapacity capacity = .ok h) : h.Fits := by
  unfold ofCapacity at hh
  split at hh
  · cases hh
  · rename_i hne
    cases hh
    exact ⟨Nat.pos_of_ne_zero hne, Nat.zero_le _⟩

theorem length_lastOf {α : Type} (count : Nat) (items : List α) :
    (lastOf count items).length = min count items.length := by
  rw [lastOf, List.length_drop]
  omega

theorem Fits.record {h : History} (hh : h.Fits) (r : Record) : (h.record r).Fits := by
  refine ⟨hh.capacity_pos, ?_⟩
  have hlength := length_lastOf h.capacity (h.records ++ [r])
  simp only [History.record]
  omega

theorem Fits.record_eq {h : History} (hh : h.Fits) (r : Record) :
    h.record r =
      { h with records := (if h.records.length < h.capacity then h.records else h.records.tail) ++ [r] } := by
  have hpos := hh.capacity_pos
  have hle := hh.length_le
  simp only [History.record, lastOf, List.length_append, List.length_singleton]
  split
  · have hdrop : h.records.length + 1 - h.capacity = 0 := by omega
    rw [hdrop, List.drop_zero]
  · have hdrop : h.records.length + 1 - h.capacity = 1 := by omega
    have hne : h.records ≠ [] := List.ne_nil_of_length_pos (by omega)
    rw [hdrop, List.drop_one, List.tail_append_of_ne_nil hne]

end RuleFlow.Run.History
