import RuleFlow.Proofs.Trace.Score

/-!
# Numbers on many validations

The numbers of valid and of invalid traces add up to the number of validations. The kinds that are listed lead a ranking
of all kinds that occur: by how often they do, and then by their names (`Precedes`). No two kinds are equal in it, as no
two have one name.
-/

namespace RuleFlow

namespace Issue.Kind

theorem mem_all (k : Kind) : k ∈ all := by cases k <;> decide

theorem nodup_all : all.Nodup := by decide

theorem nodup_names : (all.map name).Nodup := by simp [all, name]

theorem name_injective : Function.Injective name := fun k l =>
  List.inj_on_of_nodup_map nodup_names (mem_all k) (mem_all l)

end Issue.Kind

namespace Validation.Statistics

open Issue (Kind)

/-- The kinds of the issues that the validations have, one for each issue. -/
def kinds (vs : Validations) : List Kind := vs.toList.flatMap fun entry => entry.2.issues.map (·.kind)

/-- It occurs more often, or as often and its name is less. -/
def Precedes (a b : Kind × Nat) : Prop := b.2 < a.2 ∨ a.2 = b.2 ∧ Text.order a.1.name b.1.name = .lt

structure Summarizes (s : Statistics) (vs : Validations) : Prop where
  total : s.total = vs.size
  valid : s.valid = vs.toList.countP (·.2.isValid)
  invalid : s.total = s.valid + s.invalid
  length : s.commonIssues.length = min 5 (kinds vs).toFinset.card
  counted : ∀ row ∈ s.commonIssues, row.1 ∈ kinds vs ∧ row.2 = (kinds vs).count row.1
  ordered : s.commonIssues.Pairwise Precedes
  once : (s.commonIssues.map (·.1)).Nodup
  rest : ∀ k ∈ kinds vs, k ∉ s.commonIssues.map (·.1) → ∀ row ∈ s.commonIssues, Precedes row (k, (kinds vs).count k)

/-! ## The ranking -/

section

variable {issues : List Issue} {a b c : Kind × Nat} {k : Kind}

theorem comesBefore_iff : comesBefore a b ↔ Precedes a b ∨ a = b := by
  have horder : Text.order a.1.name b.1.name ≠ .gt ↔ Text.order a.1.name b.1.name = .lt ∨ a.1 = b.1 := by
    have heq : Text.order a.1.name b.1.name = .eq ↔ a.1 = b.1 :=
      Std.LawfulEqCmp.compare_eq_iff_eq.trans Kind.name_injective.eq_iff
    rw [← heq]
    cases Text.order a.1.name b.1.name <;> simp
  simp only [comesBefore, Precedes, Bool.or_eq_true, Bool.and_eq_true, decide_eq_true_eq, beq_iff_eq, bne_iff_ne,
    horder,
    Prod.ext_iff]
  tauto

theorem Precedes.trans (hab : Precedes a b) (hbc : Precedes b c) : Precedes a c := by
  rcases hab with hab | ⟨hab, hname⟩ <;> rcases hbc with hbc | ⟨hbc, hname'⟩
  · exact .inl (hbc.trans hab)
  · exact .inl (hbc ▸ hab)
  · exact .inl (hab ▸ hbc)
  · exact .inr ⟨hab.trans hbc, Std.TransCmp.lt_trans hname hname'⟩

theorem precedes_or_eq (a b : Kind × Nat) : Precedes a b ∨ a = b ∨ Precedes b a := by
  rcases Nat.lt_trichotomy a.2 b.2 with h | h | h
  · exact .inr (.inr (.inl h))
  · cases hname : Text.order a.1.name b.1.name with
    | lt => exact .inl (.inr ⟨h, hname⟩)
    | eq => exact .inr (.inl (Prod.ext (Kind.name_injective (Std.LawfulEqCmp.eq_of_compare hname)) h))
    | gt => exact .inr (.inr (.inr ⟨h.symm, Std.OrientedCmp.lt_of_gt hname⟩))
  · exact .inl (.inl h)

theorem mem_ranking : a ∈ ranking issues ↔ a.1 ∈ issues.map (·.kind) ∧ a.2 = (issues.map (·.kind)).count a.1 := by
  obtain ⟨k, n⟩ := a
  have hcount (l : Kind) : issues.countP (·.kind = l) = (issues.map (·.kind)).count l := by
    rw [List.count_eq_countP, List.countP_map]
    rfl
  simp only [ranking, List.mem_mergeSort, List.mem_filter, List.mem_map (l := Kind.all), Prod.mk.injEq,
    decide_eq_true_eq, hcount]
  rw [← List.count_pos_iff]
  constructor
  · rintro ⟨⟨l, -, rfl, rfl⟩, hn⟩
    exact ⟨Nat.pos_of_ne_zero hn, rfl⟩
  · rintro ⟨hn, rfl⟩
    exact ⟨⟨k, Kind.mem_all k, rfl, rfl⟩, hn.ne'⟩

theorem nodup_ranking (issues : List Issue) : ((ranking issues).map (·.1)).Nodup := by
  have hall : ((Kind.all.map fun k => (k, issues.countP (·.kind = k))).map (·.1)).Nodup := by
    rw [List.map_map]
    exact Kind.nodup_all.map Function.injective_id
  refine (((List.mergeSort_perm _ _).map _).nodup_iff).mpr ?_
  exact hall.sublist (List.filter_sublist.map _)

/-- Rows come one strictly before the other, as no kind has two. -/
theorem pairwise_ranking (issues : List Issue) : (ranking issues).Pairwise Precedes := by
  have htrans (a b c : Kind × Nat) (hab : comesBefore a b) (hbc : comesBefore b c) : comesBefore a c := by
    rw [comesBefore_iff] at *
    rcases hab with hab | rfl
    · rcases hbc with hbc | rfl
      · exact .inl (hab.trans hbc)
      · exact .inl hab
    · exact hbc
  have htotal (a b : Kind × Nat) : comesBefore a b || comesBefore b a := by
    rw [Bool.or_eq_true, comesBefore_iff, comesBefore_iff]
    rcases precedes_or_eq a b with h | h | h
    · exact .inl (.inl h)
    · exact .inl (.inr h)
    · exact .inr (.inl h)
  have hsorted : (ranking issues).Pairwise fun a b => comesBefore a b := List.pairwise_mergeSort htrans htotal _
  have hne : (ranking issues).Pairwise fun a b => a ≠ b := (nodup_ranking issues).of_map
  exact (hsorted.and hne).imp fun h => (comesBefore_iff.mp h.1).resolve_right h.2

theorem length_ranking (issues : List Issue) : (ranking issues).length = (issues.map (·.kind)).toFinset.card := by
  rw [← List.length_map (·.1), ← List.toFinset_card_of_nodup (nodup_ranking issues)]
  congr 1
  ext k
  simp only [List.mem_toFinset, List.mem_map (l := ranking issues), mem_ranking]
  constructor
  · rintro ⟨row, ⟨hmem, -⟩, rfl⟩
    exact hmem
  · intro hmem
    exact ⟨(k, (issues.map (·.kind)).count k), ⟨hmem, rfl⟩, rfl⟩

end

/-! ## The statistics -/

theorem kinds_eq (vs : Validations) : kinds vs = (vs.values.flatMap (·.issues)).map (·.kind) := by
  rw [kinds, Validations.values_eq, List.flatMap_map, List.map_flatMap]

/-- The numbers of no validations are those that are found otherwise, too, except for the means. -/
theorem ofValidations_fields (vs : Validations) :
    (ofValidations vs).total = vs.values.length ∧ (ofValidations vs).valid = vs.values.countP (·.isValid) ∧
      (ofValidations vs).invalid = vs.values.length - vs.values.countP (·.isValid) ∧
      (ofValidations vs).commonIssues = (ranking (vs.values.flatMap (·.issues))).take commonLimit := by
  unfold ofValidations
  split
  · rename_i hempty
    have hvalues : vs.values = [] := by
      rw [Validations.values_eq, List.isEmpty_iff.mp (Std.ExtTreeMap.isEmpty_toList.trans hempty), List.map_nil]
    have hranking : ranking [] = [] := List.length_eq_zero_iff.mp (length_ranking [])
    simp [hvalues, hranking]
  · exact ⟨rfl, rfl, rfl, rfl⟩

theorem ofValidations_summarizes (vs : Validations) : (ofValidations vs).Summarizes vs := by
  obtain ⟨htotal, hvalid, hinvalid, hcommon⟩ := ofValidations_fields vs
  obtain ⟨rows, hrows⟩ : ∃ rows, ranking (vs.values.flatMap (·.issues)) = rows := ⟨_, rfl⟩
  have hmem (row : Kind × Nat) : row ∈ rows ↔ row.1 ∈ kinds vs ∧ row.2 = (kinds vs).count row.1 := by
    rw [← hrows, mem_ranking, kinds_eq]
  have hpairwise : (rows.take commonLimit ++ rows.drop commonLimit).Pairwise Precedes := by
    rw [List.take_append_drop, ← hrows]
    exact pairwise_ranking _
  rw [hrows] at hcommon
  refine ⟨?_, ?_, ?_, ?_, ?_, ?_, ?_, ?_⟩
  · rw [htotal, Validations.values_eq, List.length_map, Std.ExtTreeMap.length_toList]
  · rw [hvalid, Validations.values_eq, List.countP_map]
    rfl
  · rw [htotal, hvalid, hinvalid, Nat.add_sub_of_le List.countP_le_length]
  · rw [hcommon, List.length_take, ← hrows, length_ranking, ← kinds_eq]
    rfl
  · rw [hcommon]
    exact fun row hrow => (hmem row).mp (List.mem_of_mem_take hrow)
  · rw [hcommon]
    exact (List.pairwise_append.mp hpairwise).1
  · rw [hcommon, List.map_take, ← hrows]
    exact (nodup_ranking _).sublist (List.take_sublist _ _)
  · rw [hcommon]
    intro k hk hleft row hrow
    have hrest : (k, (kinds vs).count k) ∈ rows.drop commonLimit := by
      have hall := (hmem (k, (kinds vs).count k)).mpr ⟨hk, rfl⟩
      rw [← List.take_append_drop commonLimit rows, List.mem_append] at hall
      exact hall.resolve_left fun hlisted => hleft (List.mem_map_of_mem hlisted)
    exact (List.pairwise_append.mp hpairwise).2.2 row hrow _ hrest

end Validation.Statistics

end RuleFlow
