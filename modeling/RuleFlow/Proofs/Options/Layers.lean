import RuleFlow.Options.Basic

/-!
# Layers of options

Merged options have each single value, and the limits of each kind, from the upper layer that has them, a list from the
upper layer unless it is empty there, and help from the upper layer in any case. So a stack of layers has one result,
however its merges are grouped.
-/

namespace RuleFlow.Options

/-! ## Single values -/

/-- An option of which there is at most one value. -/
inductive Single : Type → Type where
  | root : Single Text
  | out : Single Text
  | config : Single Text
  | traces : Single Text
  | logLevel : Single Log.Level
  | historyCapacity : Single Nat
  | statisticsWindow : Single Nat
  | maxWorkers : Single Nat

def Single.get {α : Type} : Single α → Options → Option α
  | root, o => o.root
  | out, o => o.out
  | config, o => o.config
  | traces, o => o.traces
  | logLevel, o => o.logLevel
  | historyCapacity, o => o.historyCapacity
  | statisticsWindow, o => o.statisticsWindow
  | maxWorkers, o => o.maxWorkers

theorem Single.get_merge {α : Type} (s : Single α) (lower upper : Options) :
    s.get (merge lower upper) = (s.get upper).or (s.get lower) := by
  cases s <;> simp [get, merge]

/-! ## Two and three layers -/

theorem overList_assoc (lowest middle highest : List Text) :
    overList lowest (overList middle highest) = overList (overList lowest middle) highest := by
  cases highest with
  | nil => rfl
  | cons => rfl

theorem nil_overList (upper : List Text) : overList [] upper = upper := by
  cases upper with
  | nil => rfl
  | cons => rfl

theorem merge_assoc (lowest middle highest : Options) :
    merge lowest (merge middle highest) = merge (merge lowest middle) highest := by
  simp only [merge, overList_assoc, Option.orElse_eq_orElse, Option.orElse_eq_or, Option.or_assoc]

theorem empty_merge (o : Options) : merge {} o = o := by
  simp only [merge, nil_overList, Option.orElse_eq_orElse, Option.orElse_eq_or, Option.or_none]

/-- Below no options at all only the call for help is lost. -/
theorem merge_empty (o : Options) : merge o {} = { o with showHelp := false } := rfl

/-! ## Stacks -/

/-- Layers that are merged two by two. -/
inductive Grouping where
  | layer (o : Options)
  | pair (lower upper : Grouping)

namespace Grouping

def merged : Grouping → Options
  | layer o => o
  | pair lower upper => merge lower.merged upper.merged

/-- The layers, the lowest first. -/
def layers : Grouping → List Options
  | layer o => [o]
  | pair lower upper => lower.layers ++ upper.layers

theorem merge_merged (g : Grouping) (base : Options) : merge base g.merged = g.layers.foldl merge base := by
  induction g generalizing base with
  | layer o => rfl
  | pair lower upper ihlower ihupper =>
      rw [merged, layers, List.foldl_append, ← ihlower, ← ihupper]
      exact merge_assoc base lower.merged upper.merged

theorem merged_eq (g : Grouping) : g.merged = g.layers.foldl merge {} := by
  rw [← merge_merged, empty_merge]

/-- A single value comes from the highest layer that has it. -/
theorem get_merged {α : Type} (s : Single α) (g : Grouping) : s.get g.merged = g.layers.reverse.findSome? s.get := by
  induction g with
  | layer o => cases h : s.get o <;> simp [merged, layers, h]
  | pair lower upper ihlower ihupper =>
      rw [merged, Single.get_merge, layers, List.reverse_append, List.findSome?_append, ihlower, ihupper]

end Grouping

/-- Merging is associative, empty options make no difference below others, and above them they only take the call for
help away. So layers that are merged in any grouping give what they give when each is put on all below it. -/
theorem merge_grouping :
    (∀ lowest middle highest, merge lowest (merge middle highest) = merge (merge lowest middle) highest) ∧
      (∀ o, merge {} o = o) ∧
      (∀ o, merge o {} = { o with showHelp := false }) ∧ ∀ g : Grouping, g.merged = g.layers.foldl merge {} :=
  ⟨merge_assoc, empty_merge, merge_empty, Grouping.merged_eq⟩

end RuleFlow.Options
