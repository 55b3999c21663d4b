import RuleFlow.Text.Basic

/-!
# Lines

A line is what stands in front of a line feed. A text of whole lines keeps them whatever follows it.
-/

namespace RuleFlow.Text

variable {s t l : Text} {ls : List Text}

/-- The lines of a text, each without the line feed at its end. What follows the last line feed is no line. -/
def lines (t : Text) : List Text := (t.splitOn 10).dropLast

/-- The text of these lines. -/
def ofLines (ls : List Text) : Text := ls.flatMap (· ++ [10])

theorem splitOn_ofLines (h : ∀ l ∈ ls, 10 ∉ l) : (ofLines ls).splitOn 10 = ls ++ [[]] := by
  induction ls with
  | nil => rfl
  | cons l ls ih =>
      obtain ⟨hl, hls⟩ := List.forall_mem_cons.mp h
      rw [ofLines, List.flatMap_cons, List.append_assoc, List.singleton_append,
        List.splitOn_append_cons_self_of_not_mem hl]
      exact congrArg (l :: ·) (ih hls)

theorem lines_ofLines (h : ∀ l ∈ ls, 10 ∉ l) : lines (ofLines ls) = ls := by
  rw [lines, splitOn_ofLines h, List.dropLast_concat]

/-- No part of a line stands at the end. -/
def IsWhole (t : Text) : Prop := t = [] ∨ [10] <:+ t

theorem isWhole_append (h : [10] <:+ t) (s : Text) : IsWhole (s ++ t) := .inr (h.trans (List.suffix_append s t))

theorem IsWhole.append (hs : IsWhole s) (ht : IsWhole t) : IsWhole (s ++ t) := by
  rcases ht with rfl | ht
  · rwa [List.append_nil]
  · exact isWhole_append ht s

theorem isWhole_flatMap {α : Type} {f : α → Text} (h : ∀ a, IsWhole (f a)) (as : List α) : IsWhole (as.flatMap f) := by
  induction as with
  | nil => exact .inl rfl
  | cons a as ih => exact (h a).append ih

theorem lines_append (hs : IsWhole s) (t : Text) : lines (s ++ t) = lines s ++ lines t := by
  rcases hs with rfl | ⟨s, rfl⟩
  · rfl
  · have hfront : lines (s ++ [10]) = s.splitOn 10 := by
      rw [lines, List.splitOn_append_cons_self, List.splitOn_nil, List.dropLast_concat]
    rw [hfront, lines, List.append_assoc, List.singleton_append, List.splitOn_append_cons_self,
      List.dropLast_append_of_ne_nil (List.splitOn_ne_nil _ _)]
    rfl

theorem length_splitOn_feed (t : Text) : (t.splitOn 10).length = t.count 10 + 1 := by
  induction t with
  | nil => rfl
  | cons b t ih =>
      rw [List.splitOn_cons_eq_if_modifyHead]
      by_cases hb : b = 10
      · simp [hb, ih]
      · simp [hb, ih]

theorem length_lines (t : Text) : (lines t).length = t.count 10 := by
  rw [lines, List.length_dropLast, length_splitOn_feed, Nat.add_sub_cancel]

theorem count_feed_flatMap {α : Type} {f : α → Text} {as : List α} (h : ∀ a ∈ as, (f a).count 10 = 1) :
    (as.flatMap f).count 10 = as.length := by
  induction as with
  | nil => rfl
  | cons a as ih =>
      obtain ⟨ha, has⟩ := List.forall_mem_cons.mp h
      rw [List.flatMap_cons, List.count_append, ha, ih has, List.length_cons, Nat.add_comm]

end RuleFlow.Text
