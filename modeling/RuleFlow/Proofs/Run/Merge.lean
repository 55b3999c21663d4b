import RuleFlow.Proofs.Run.Analyzer

/-!
# Merging runs

Results by file are merged like lists: no results make no difference, and it does not matter how merges are grouped. So
the phases of a plan leave under each file what each of them leaves there, in order, and nothing is lost or made up
(`merge_concatenates`).
-/

namespace RuleFlow.Run

namespace Results

variable {rs more : Results} {runs : List Results} {f : Text}

/-! ## Grouping -/

theorem empty_merge (rs : Results) : (∅ : Results).merge rs = rs := by
  apply ext_listed
  · intro f
    rw [mem_merge, or_iff_right (by simp)]
  · intro f
    rw [listed_merge, listed_empty, List.nil_append]

theorem merge_empty (rs : Results) : rs.merge ∅ = rs := by
  apply ext_listed
  · intro f
    rw [mem_merge, or_iff_left (by simp)]
  · intro f
    rw [listed_merge, listed_empty, List.append_nil]

theorem merge_assoc (rs more others : Results) : (rs.merge more).merge others = rs.merge (more.merge others) := by
  apply ext_listed
  · intro f
    simp only [mem_merge, or_assoc]
  · intro f
    simp only [listed_merge, List.append_assoc]

/-! ## One run after the other -/

theorem mem_foldl_merge : f ∈ runs.foldl merge rs ↔ f ∈ rs ∨ ∃ run ∈ runs, f ∈ run := by
  induction runs generalizing rs with
  | nil => simp
  | cons run runs ih => simp [ih, mem_merge, or_assoc]

theorem listed_foldl_merge (runs : List Results) (rs : Results) (f : Text) :
    (runs.foldl merge rs).listed f = rs.listed f ++ runs.flatMap (·.listed f) := by
  induction runs generalizing rs with
  | nil => simp
  | cons run runs ih => rw [List.foldl_cons, ih, listed_merge, List.flatMap_cons, List.append_assoc]

/-! ## All results -/

/-- All results come together from any files among which are those with results. -/
theorem flatten_perm_flatMap {files : List Text} (hfiles : files.Nodup) (hall : ∀ f ∈ rs, f ∈ files) :
    rs.flatten.Perm (files.flatMap rs.listed) := by
  have hkeys : rs.keys.Perm (files.filter (· ∈ rs)) := by
    rw [List.perm_ext_iff_of_nodup (nodup_keys rs) (hfiles.filter _)]
    intro f
    simpa using hall f
  have hothers : (files.filter fun f => !decide (f ∈ rs)).flatMap rs.listed = [] := by
    rw [List.flatMap_eq_nil_iff]
    intro f hf
    exact listed_of_notMem (by simpa using (List.mem_filter.mp hf).2)
  have hsplit := (List.filter_append_perm (· ∈ rs) files).flatMap_right rs.listed
  rw [List.flatMap_append, hothers, List.append_nil] at hsplit
  rw [flatten_eq_flatMap_keys]
  exact (hkeys.flatMap_right rs.listed).trans hsplit

/-- Merging neither loses a result nor makes one up. -/
theorem flatten_merge_perm (rs more : Results) : (rs.merge more).flatten.Perm (rs.flatten ++ more.flatten) := by
  have hkeys := nodup_keys (rs.merge more)
  have hrs : rs.flatten.Perm ((rs.merge more).keys.flatMap rs.listed) :=
    flatten_perm_flatMap hkeys fun f hf => Std.ExtTreeMap.mem_keys.mpr (mem_merge.mpr (.inl hf))
  have hmore : more.flatten.Perm ((rs.merge more).keys.flatMap more.listed) :=
    flatten_perm_flatMap hkeys fun f hf => Std.ExtTreeMap.mem_keys.mpr (mem_merge.mpr (.inr hf))
  rw [flatten_eq_flatMap_keys (rs.merge more), funext (listed_merge rs more)]
  exact (List.flatMap_append_perm _ rs.listed more.listed).symm.trans (hrs.append hmore).symm

theorem flatten_foldl_merge_perm (runs : List Results) (rs : Results) :
    (runs.foldl merge rs).flatten.Perm (rs.flatten ++ runs.flatMap flatten) := by
  induction runs generalizing rs with
  | nil => simp
  | cons run runs ih =>
      rw [List.foldl_cons, List.flatMap_cons, ← List.append_assoc]
      exact (ih (rs.merge run)).trans ((flatten_merge_perm rs run).append_right _)

theorem length_flatten_foldl_merge (runs : List Results) :
    (runs.foldl merge ∅).flatten.length = (runs.map (·.flatten.length)).sum := by
  have hempty : (∅ : Results).flatten = [] := rfl
  rw [(flatten_foldl_merge_perm runs ∅).length_eq, hempty, List.nil_append, List.length_flatMap]

end Results

open Results (merge)

/-- Merged results have the files of both, and under each file the results of the one followed by those of the other. It
makes no difference how merges are grouped, nor does a merge with no results. So runs that are merged one by one leave
under each file what each of them has there, in the order of the runs, and as many results as all of them together. The
results of a plan are its phases merged in this way. -/
theorem Results.merge_concatenates :
    (∀ rs more : Results, (∀ f, f ∈ rs.merge more ↔ f ∈ rs ∨ f ∈ more) ∧
      ∀ f, (rs.merge more).listed f = rs.listed f ++ more.listed f) ∧
    (∀ rs more others : Results, (rs.merge more).merge others = rs.merge (more.merge others)) ∧
    (∀ rs : Results, (∅ : Results).merge rs = rs ∧ rs.merge ∅ = rs) ∧
    (∀ runs : List Results,
      (∀ f, f ∈ runs.foldl merge ∅ ↔ ∃ run ∈ runs, f ∈ run) ∧
      (∀ f, (runs.foldl merge ∅).listed f = runs.flatMap (·.listed f)) ∧
      (runs.foldl merge ∅).flatten.length = (runs.map (·.flatten.length)).sum) ∧
    ∀ (a : Analyzer) (machine : Machine) (p : Plan) (files : Parser.FilesByKind),
      (a.execute machine p files).1 =
        (p.phases.map fun phase =>
          (runPhase machine a.settings.maxWorkers a.registry phase.ordered files).1).foldl merge ∅ := by
  refine ⟨fun rs more => ⟨fun f => mem_merge, listed_merge rs more⟩, merge_assoc,
    fun rs => ⟨empty_merge rs, merge_empty rs⟩,
    fun runs => ⟨fun f => ?_, fun f => ?_, length_flatten_foldl_merge runs⟩, fun a machine p files => ?_⟩
  · rw [mem_foldl_merge, or_iff_right (by simp)]
  · rw [listed_foldl_merge, listed_empty, List.nil_append]
  · exact a.execute_eq_foldl machine p files

end RuleFlow.Run
