import Mathlib.Data.List.TakeWhile
import Mathlib.Data.List.Basic
import RuleFlow.Path.Basic
import RuleFlow.Proofs.Lists

/-!
# Names in paths

A slash parts a path into the names before it and those after it, and what follows the last slash is the name of the
file. A path that is put together from the root and names has these names.
-/

namespace RuleFlow

/-- A text without a zero byte is seen as a whole. -/
theorem Text.untilZero_eq {t : Text} (h : 0 ∉ t) : untilZero t = t := by
  refine List.takeWhile_eq_self_iff.mpr fun b hb => ?_
  exact bne_iff_ne.mpr fun hzero => h (hzero ▸ hb)

namespace Path

/-- A name that stands for itself wherever it comes in a path. -/
@[mk_iff]
structure IsName (n : Text) : Prop where
  ne_nil : n ≠ []
  slash_notMem : slash ∉ n
  ne_dot : n ≠ dot
  ne_dotDot : n ≠ dotDot

instance (n : Text) : Decidable (IsName n) := decidable_of_iff' _ (isName_iff n)

variable {p q n : Text} {ns : List Text}

/-! ## Slashes -/

theorem names_append_slash (p q : Text) : names (p ++ slash :: q) = names p ++ names q := by
  rw [names, List.splitOn_append_cons_self, List.filter_append]
  rfl

theorem fileName_append_slash (p q : Text) : fileName (p ++ slash :: q) = fileName q := by
  have hstop : ∀ l r : Text, (l ++ slash :: r).takeWhile (· != slash) = l.takeWhile (· != slash) := by
    intro l r
    induction l with
    | nil => simp
    | cons b l ih => by_cases hb : b = slash <;> simp [hb, ih]
  rw [fileName, List.reverse_append, List.reverse_cons, List.append_assoc, List.singleton_append, hstop, fileName]

theorem isAbsolute_append (hp : p ≠ []) (q : Text) : isAbsolute (p ++ q) = isAbsolute p := by
  rw [isAbsolute, List.head?_append_of_ne_nil _ hp, isAbsolute]

@[simp] theorem isAbsolute_slash (p : Text) : isAbsolute (slash :: p) := rfl

theorem isAbsolute_iff : isAbsolute p ↔ ∃ q, p = slash :: q := by
  cases p <;> simp [isAbsolute]

/-! ## Names -/

theorem ne_nil_of_mem_names (h : n ∈ names p) : n ≠ [] := by
  simpa using (List.mem_filter.mp h).2

theorem slash_notMem_of_mem_names (h : n ∈ names p) : slash ∉ n :=
  notMem_of_mem_splitOn (List.mem_filter.mp h).1

namespace IsName

theorem names_eq (h : IsName n) : names n = [n] := by
  simp [names, List.splitOn_eq_singleton h.slash_notMem, h.ne_nil]

theorem fileName_eq (h : IsName n) : fileName n = n := by
  have hall : n.reverse.takeWhile (· != slash) = n.reverse := by
    refine List.takeWhile_eq_self_iff.mpr fun b hb => bne_iff_ne.mpr ?_
    rintro rfl
    exact h.slash_notMem (List.mem_reverse.mp hb)
  rw [fileName, hall, List.reverse_reverse]

theorem isAbsolute_eq (h : IsName n) : isAbsolute n = false := by
  rw [← Bool.not_eq_true, isAbsolute_iff]
  rintro ⟨q, rfl⟩
  exact h.slash_notMem List.mem_cons_self

end IsName

/-! ## Paths put together from names -/

theorem join_cons (n : Text) (hns : ns ≠ []) : Text.join [slash] (n :: ns) = n ++ slash :: Text.join [slash] ns := by
  rw [Text.join, List.intercalate_cons_of_ne_nil hns, List.append_assoc]
  rfl

theorem join_concat (hns : ns ≠ []) (n : Text) :
    Text.join [slash] (ns ++ [n]) = Text.join [slash] ns ++ slash :: n := by
  induction ns with
  | nil => exact absurd rfl hns
  | cons m ns ih =>
      cases ns with
      | nil => rw [List.singleton_append, join_cons m (List.cons_ne_nil _ _)]; simp [Text.join]
      | cons m' ns =>
          rw [List.cons_append, join_cons m (by simp), ih (List.cons_ne_nil _ _), join_cons m (List.cons_ne_nil _ _),
            List.append_assoc, List.cons_append]

theorem names_join (hns : ∀ n ∈ ns, IsName n) : names (Text.join [slash] ns) = ns := by
  cases ns with
  | nil => rfl
  | cons n ns =>
      rw [names, Text.join, List.splitOn_intercalate _ (fun m hm => (hns m hm).slash_notMem) (List.cons_ne_nil _ _),
        List.filter_eq_self]
      exact fun m hm => by simpa using (hns m hm).ne_nil

theorem ofNames_true (ns : List Text) : ofNames true ns = slash :: Text.join [slash] ns := rfl

@[simp] theorem isAbsolute_ofNames (ns : List Text) : isAbsolute (ofNames true ns) := rfl

theorem names_ofNames (hns : ∀ n ∈ ns, IsName n) : names (ofNames true ns) = ns := by
  rw [ofNames_true, ← List.nil_append (slash :: _), names_append_slash, names_join hns]
  rfl

theorem ofNames_concat (hns : ns ≠ []) (n : Text) : ofNames true (ns ++ [n]) = ofNames true ns ++ slash :: n := by
  rw [ofNames_true, join_concat hns, ofNames_true, List.cons_append]

theorem ofNames_singleton (n : Text) : ofNames true [n] = slash :: n := by
  simp [ofNames_true, Text.join]

/-- The last name stands behind a slash. -/
theorem exists_front (ns : List Text) (n : Text) : ∃ front, ofNames true (ns ++ [n]) = front ++ slash :: n := by
  cases ns with
  | nil => exact ⟨[], ofNames_singleton n⟩
  | cons m ns => exact ⟨_, ofNames_concat (List.cons_ne_nil m ns) n⟩

theorem fileName_ofNames_concat (ns : List Text) (hn : IsName n) : fileName (ofNames true (ns ++ [n])) = n := by
  obtain ⟨front, hfront⟩ := exists_front ns n
  rw [hfront, fileName_append_slash, hn.fileName_eq]

theorem append_ofNames (hns : ∀ m ∈ ns, IsName m) (hn : IsName n) :
    append (ofNames true ns) n = ofNames true (ns ++ [n]) := by
  have hthere : (ofNames true ns).isEmpty = false := rfl
  rw [append, hn.isAbsolute_eq, hthere, Bool.or_false, if_neg Bool.false_ne_true]
  rcases List.eq_nil_or_concat ns with rfl | ⟨ms, m, rfl⟩
  · rw [List.nil_append, ofNames_singleton]
    rfl
  · rw [List.concat_eq_append] at hns ⊢
    have hm := hns m (by simp)
    have hne : ms ++ [m] ≠ [] := by simp
    rw [fileName_ofNames_concat ms hm, if_neg (by simpa using hm.ne_nil), ofNames_concat hne]

theorem zero_notMem_ofNames (hns : ∀ m ∈ ns, 0 ∉ m) : 0 ∉ ofNames true ns := by
  rw [ofNames_true, List.mem_cons, not_or]
  refine ⟨by decide, ?_⟩
  induction ns with
  | nil => exact List.not_mem_nil
  | cons m ns ih =>
      obtain ⟨hm, hns⟩ := List.forall_mem_cons.mp hns
      rcases eq_or_ne ns [] with rfl | hne
      · simpa [Text.join] using hm
      · rw [join_cons m hne, List.mem_append, List.mem_cons, not_or, not_or]
        exact ⟨hm, by decide, ih hns⟩

theorem endsInSlash_ofNames (hns : ∀ m ∈ ns, IsName m) : endsInSlash (ofNames true ns) = ns.isEmpty := by
  rcases List.eq_nil_or_concat ns with rfl | ⟨ms, m, rfl⟩
  · rfl
  · rw [List.concat_eq_append] at hns ⊢
    have hm := hns m (by simp)
    obtain ⟨front, hfront⟩ := exists_front ms m
    have hlast : m.getLast hm.ne_nil ≠ slash := fun h => hm.slash_notMem (h ▸ List.getLast_mem hm.ne_nil)
    have hne : (ms ++ [m]).isEmpty = false := by simp
    rw [hfront, hne, endsInSlash, List.append_cons, List.getLast?_append_of_ne_nil _ hm.ne_nil,
      List.getLast?_eq_some_getLast hm.ne_nil]
    simpa using hlast

/-- The elements of a path from the root are the root and the names. -/
theorem elements_ofNames (hns : ∀ n ∈ ns, IsName n) : elements (ofNames true ns) = [slash] :: ns := by
  rw [elements, names_ofNames hns, endsInSlash_ofNames hns, if_pos (isAbsolute_ofNames ns)]
  simp

theorem isWithin_iff : isWithin p q ↔ elements q <+: elements p := List.isPrefixOf_iff_prefix

/-- Of paths from the root one leads on from the other by elements where it does so by names. -/
theorem elements_prefix_iff {ms : List Text} (hns : ∀ n ∈ ns, IsName n) (hms : ∀ m ∈ ms, IsName m) :
    elements (ofNames true ns) <+: elements (ofNames true ms) ↔ ns <+: ms := by
  rw [elements_ofNames hns, elements_ofNames hms, List.prefix_cons_inj]

end Path

end RuleFlow
