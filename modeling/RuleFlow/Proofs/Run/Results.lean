import Mathlib.Data.Finset.Card
import RuleFlow.Proofs.Lists
import RuleFlow.Run.Result

/-!
# Results by file

Results that come one after the other are listed by file (`Results.ofList`) without loss: each file has its own results
in the order in which they came, and merging two runs is the same as listing the results of one after the other.
-/

namespace RuleFlow.Run.Results

/-- Results listed by file. -/
def ofList (all : List Result) : Results := all.foldl push ∅

/-- The results of a file, none for a file without results. -/
def listed (rs : Results) (file : Text) : List Result := rs[file]?.getD []

variable {rs more : Results} {all : List Result} {file f : Text}

theorem getElem?_of_mem (h : f ∈ rs) : rs[f]? = some (rs.listed f) := by
  rw [listed]
  cases hf : rs[f]? with
  | none => simp [Std.ExtTreeMap.mem_iff_isSome_getElem?, hf] at h
  | some list => rfl

theorem listed_of_notMem (h : f ∉ rs) : rs.listed f = [] := by
  rw [listed, Std.ExtTreeMap.getElem?_eq_none h, Option.getD_none]

theorem listed_empty (f : Text) : (∅ : Results).listed f = [] := listed_of_notMem (by simp)

theorem ext_listed (hmem : ∀ f, f ∈ rs ↔ f ∈ more) (hlisted : ∀ f, rs.listed f = more.listed f) : rs = more := by
  apply Std.ExtTreeMap.ext_getElem?
  intro f
  by_cases h : f ∈ rs
  · rw [getElem?_of_mem h, getElem?_of_mem ((hmem f).mp h), hlisted]
  · rw [Std.ExtTreeMap.getElem?_eq_none h, Std.ExtTreeMap.getElem?_eq_none (mt (hmem f).mpr h)]

/-! ## The list of all files -/

theorem mem_toList {list : List Result} : (f, list) ∈ rs.toList ↔ f ∈ rs ∧ list = rs.listed f := by
  rw [Std.ExtTreeMap.mem_toList_iff_getElem?_eq_some]
  constructor
  · intro h
    exact ⟨by simp [Std.ExtTreeMap.mem_iff_isSome_getElem?, h], by simp [listed, h]⟩
  · rintro ⟨h, rfl⟩
    exact getElem?_of_mem h

theorem nodup_keys (rs : Results) : rs.keys.Nodup :=
  Std.ExtTreeMap.nodup_keys

theorem nodup_toList (rs : Results) : rs.toList.Nodup := by
  have hkeys := nodup_keys rs
  rw [← Std.ExtTreeMap.map_fst_toList_eq_keys] at hkeys
  exact hkeys.of_map

/-! ## More results of a file -/

theorem getElem?_append (rs : Results) (file : Text) (added : List Result) (f : Text) :
    (rs.append file added)[f]? = if file = f then some (rs.listed f ++ added) else rs[f]? := by
  rw [append, Std.ExtTreeMap.getElem?_alter]
  by_cases h : file = f
  · subst h
    simp [listed]
  · simp [h, Std.LawfulEqCmp.compare_eq_iff_eq]

theorem mem_append {added : List Result} : f ∈ rs.append file added ↔ f ∈ rs ∨ file = f := by
  rw [Std.ExtTreeMap.mem_iff_isSome_getElem?, getElem?_append, Std.ExtTreeMap.mem_iff_isSome_getElem?]
  split <;> simp [*]

theorem listed_append (added : List Result) :
    (rs.append file added).listed f = rs.listed f ++ if file = f then added else [] := by
  rw [listed, getElem?_append]
  split <;> simp [listed]

/-! ## Results one after the other -/

theorem mem_foldl_push : f ∈ all.foldl push rs ↔ f ∈ rs ∨ ∃ r ∈ all, r.file = f := by
  induction all generalizing rs with
  | nil => simp
  | cons r all ih => simp [ih, push, mem_append, or_assoc]

theorem listed_foldl_push (all : List Result) (rs : Results) (f : Text) :
    (all.foldl push rs).listed f = rs.listed f ++ all.filter (·.file = f) := by
  induction all generalizing rs with
  | nil => simp
  | cons r all ih =>
      rw [List.foldl_cons, ih, push, listed_append, List.filter_cons]
      split <;> simp_all

theorem mem_ofList : f ∈ ofList all ↔ ∃ r ∈ all, r.file = f := by
  simp [ofList, mem_foldl_push]

theorem listed_ofList (all : List Result) (f : Text) : (ofList all).listed f = all.filter (·.file = f) := by
  rw [ofList, listed_foldl_push, listed_empty, List.nil_append]

/-- Lists that have the same files in the same order are the same if each file has the same results in both. -/
theorem eq_of_filter_file {others : List Result} (hfiles : all.map (·.file) = others.map (·.file))
    (h : ∀ f, all.filter (·.file = f) = others.filter (·.file = f)) : all = others := by
  induction all generalizing others with
  | nil => exact (List.map_eq_nil_iff.mp hfiles.symm).symm
  | cons r all ih =>
      cases others with
      | nil => cases hfiles
      | cons s others =>
          rw [List.map_cons, List.map_cons, List.cons.injEq] at hfiles
          obtain ⟨hfile, hfiles⟩ := hfiles
          have hfirst : r = s := by
            have hr := h r.file
            simp only [List.filter_cons, hfile, decide_true, if_true, List.cons.injEq] at hr
            exact hr.1
          subst hfirst
          refine congrArg (r :: ·) (ih hfiles fun f => ?_)
          have hf := h f
          by_cases hrf : r.file = f
          · simpa [List.filter_cons, hrf] using hf
          · simpa [List.filter_cons, hrf] using hf

theorem ofList_eq_iff {others : List Result} (hfiles : all.map (·.file) = others.map (·.file)) :
    ofList all = ofList others ↔ all = others := by
  refine ⟨fun h => eq_of_filter_file hfiles fun f => ?_, congrArg ofList⟩
  rw [← listed_ofList, ← listed_ofList, h]

/-! ## Two runs -/

/-- A file has at most one entry in the list of all files. -/
theorem filter_toList (rs : Results) (f : Text) :
    rs.toList.filter (·.1 = f) = if f ∈ rs then [(f, rs.listed f)] else [] := by
  split
  · rename_i hf
    have hnodup : (rs.toList.filter (·.1 = f)).Nodup := (nodup_toList rs).filter _
    rw [← List.perm_singleton, List.perm_ext_iff_of_nodup hnodup (List.nodup_singleton _)]
    rintro ⟨g, list⟩
    rw [List.mem_filter, mem_toList, List.mem_singleton, Prod.mk.injEq, decide_eq_true_eq]
    constructor
    · rintro ⟨⟨-, rfl⟩, rfl⟩
      exact ⟨rfl, rfl⟩
    · rintro ⟨rfl, rfl⟩
      exact ⟨⟨hf, rfl⟩, rfl⟩
  · rename_i hf
    rw [List.filter_eq_nil_iff]
    rintro ⟨g, list⟩ hmem
    rw [decide_eq_true_eq]
    rintro rfl
    exact hf (mem_toList.mp hmem).1

theorem merge_eq_foldl (rs more : Results) :
    rs.merge more = more.toList.foldl (fun rs entry => rs.append entry.1 entry.2) rs := rfl

theorem mem_merge : f ∈ rs.merge more ↔ f ∈ rs ∨ f ∈ more := by
  rw [merge_eq_foldl, ← Std.ExtTreeMap.mem_keys (t := more), ← Std.ExtTreeMap.map_fst_toList_eq_keys]
  induction more.toList generalizing rs with
  | nil => simp
  | cons entry entries ih => simp [ih, mem_append, or_assoc, eq_comm]

theorem listed_foldl_append (entries : List (Text × List Result)) (rs : Results) (f : Text) :
    (entries.foldl (fun rs entry => rs.append entry.1 entry.2) rs).listed f =
      rs.listed f ++ (entries.filter (·.1 = f)).flatMap (·.2) := by
  induction entries generalizing rs with
  | nil => simp
  | cons entry entries ih =>
      rw [List.foldl_cons, ih, listed_append, List.filter_cons]
      split <;> simp_all

theorem listed_merge (rs more : Results) (f : Text) : (rs.merge more).listed f = rs.listed f ++ more.listed f := by
  rw [merge_eq_foldl, listed_foldl_append, filter_toList]
  split
  · simp
  · rename_i hf
    simp [listed_of_notMem hf]

theorem merge_ofList (some more : List Result) : (ofList some).merge (ofList more) = ofList (some ++ more) := by
  apply ext_listed
  · intro f
    simp only [mem_merge, mem_ofList, List.mem_append, or_and_right, exists_or]
  · intro f
    simp only [listed_merge, listed_ofList, List.filter_append]

theorem foldl_merge_ofList (runs : List (List Result)) (earlier : List Result) :
    (runs.map ofList).foldl merge (ofList earlier) = ofList (earlier ++ runs.flatten) := by
  induction runs generalizing earlier with
  | nil => simp
  | cons run runs ih => simp [merge_ofList, ih]

/-! ## All results -/

theorem flatten_eq_flatMap_keys (rs : Results) : rs.flatten = rs.keys.flatMap rs.listed := by
  rw [flatten, ← Std.ExtTreeMap.map_fst_toList_eq_keys, List.flatMap_map]
  apply List.flatMap_congr
  rintro ⟨f, list⟩ hmem
  exact (mem_toList.mp hmem).2

theorem flatten_ofList_perm (all : List Result) : (ofList all).flatten.Perm all := by
  rw [flatten_eq_flatMap_keys, funext (listed_ofList all)]
  apply flatMap_filter_perm_self Result.file (nodup_keys _)
  intro r hr
  exact Std.ExtTreeMap.mem_keys.mpr (mem_ofList.mpr ⟨r, hr, rfl⟩)

theorem size_ofList (all : List Result) : (ofList all).size = (all.map (·.file)).toFinset.card := by
  have hkeys : (ofList all).keys.toFinset = (all.map (·.file)).toFinset := by
    ext f
    simp [mem_ofList]
  rw [← Std.ExtTreeMap.length_keys, ← List.toFinset_card_of_nodup (nodup_keys _), hkeys]

end RuleFlow.Run.Results
