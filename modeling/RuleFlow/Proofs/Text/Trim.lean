import Mathlib.Data.List.TakeWhile
import RuleFlow.Text.Basic

/-!
# Trimmed texts

A trimmed text neither starts nor ends with a blank. Trimming takes the blanks around it away and nothing else.
-/

namespace RuleFlow.Text

variable {t before after : Text}

/-- Neither the first nor the last byte is a blank. -/
structure IsTrimmed (t : Text) : Prop where
  head : ∀ b ∈ t.head?, ¬ isBlankByte b
  last : ∀ b ∈ t.getLast?, ¬ isBlankByte b

/-! ## Blanks in front -/

theorem not_isBlankByte_of_mem_head?_dropWhile {b : UInt8} (h : b ∈ (t.dropWhile isBlankByte).head?) :
    ¬ isBlankByte b := by
  have hhead := List.head?_dropWhile_not isBlankByte t
  rw [Option.mem_def.mp h] at hhead
  simpa using hhead

theorem dropWhile_eq_self (h : ∀ b ∈ t.head?, ¬ isBlankByte b) : t.dropWhile isBlankByte = t := by
  cases t with
  | nil => rfl
  | cons b t => exact List.dropWhile_cons_of_neg (h b rfl)

theorem dropWhile_padded (hbefore : isBlank before) : (before ++ t).dropWhile isBlankByte = t.dropWhile isBlankByte :=
  List.dropWhile_append_of_pos (List.all_eq_true.mp hbefore)

theorem exists_blank_front (t : Text) : ∃ before, isBlank before ∧ t = before ++ t.dropWhile isBlankByte :=
  ⟨t.takeWhile isBlankByte, List.all_takeWhile, (List.takeWhile_append_dropWhile ..).symm⟩

theorem isBlank_reverse : isBlank t.reverse ↔ isBlank t := by simp [isBlank]

theorem isBlank_append : isBlank (before ++ after) ↔ isBlank before ∧ isBlank after := by simp [isBlank]

/-! ## Blanks around -/

/-- A trimmed text comes out of the blanks around it. -/
theorem trim_padded (hbefore : isBlank before) (hafter : isBlank after) (ht : IsTrimmed t) :
    trim (before ++ t ++ after) = t := by
  cases t with
  | nil =>
      rw [trim_eq_nil_iff, List.append_nil, isBlank_append]
      exact ⟨hbefore, hafter⟩
  | cons b t =>
      have hlast : ∀ c ∈ (b :: t).reverse.head?, ¬ isBlankByte c := by
        rw [List.head?_reverse]
        exact ht.last
      rw [trim, List.append_assoc, dropWhile_padded hbefore, dropWhile_eq_self (t := b :: t ++ after) ht.head,
        List.reverse_append,
        dropWhile_padded (isBlank_reverse.mpr hafter), dropWhile_eq_self hlast, List.reverse_reverse]

theorem exists_blank_back (t : Text) : ∃ after, isBlank after ∧ t.dropWhile isBlankByte = trim t ++ after := by
  obtain ⟨back, hback, hsplit⟩ := exists_blank_front (t.dropWhile isBlankByte).reverse
  refine ⟨back.reverse, isBlank_reverse.mpr hback, ?_⟩
  rw [trim, ← List.reverse_append, ← hsplit, List.reverse_reverse]

theorem exists_padding (t : Text) : ∃ before after, isBlank before ∧ isBlank after ∧ t = before ++ trim t ++ after := by
  obtain ⟨before, hbefore, hfront⟩ := exists_blank_front t
  obtain ⟨after, hafter, hback⟩ := exists_blank_back t
  exact ⟨before, after, hbefore, hafter, by rw [List.append_assoc, ← hback, ← hfront]⟩

theorem isTrimmed_trim (t : Text) : IsTrimmed (trim t) where
  head b hb := by
    obtain ⟨after, -, hback⟩ := exists_blank_back t
    refine not_isBlankByte_of_mem_head?_dropWhile (t := t) ?_
    rw [hback, List.head?_append, Option.mem_def.mp hb]
    rfl
  last b hb := by
    rw [trim, List.getLast?_reverse] at hb
    exact not_isBlankByte_of_mem_head?_dropWhile hb

theorem trim_eq_self (ht : IsTrimmed t) : trim t = t := by
  have hnil : isBlank [] := rfl
  simpa using trim_padded hnil hnil ht

/-- Blanks around a text do not matter, whether it is trimmed or not. -/
theorem trim_surrounded (hbefore : isBlank before) (hafter : isBlank after) (t : Text) :
    trim (before ++ t ++ after) = trim t := by
  obtain ⟨front, back, hfront, hback, hsplit⟩ := exists_padding t
  calc trim (before ++ t ++ after)
      = trim (before ++ (front ++ trim t ++ back) ++ after) := by rw [← hsplit]
    _ = trim (before ++ front ++ trim t ++ (back ++ after)) := by simp only [List.append_assoc]
    _ = trim t :=
      trim_padded (isBlank_append.mpr ⟨hbefore, hfront⟩) (isBlank_append.mpr ⟨hback, hafter⟩) (isTrimmed_trim t)

/-! ## Byte by byte -/

section

variable {f : UInt8 → UInt8}

theorem dropWhile_map (hf : ∀ b, isBlankByte (f b) = isBlankByte b) (t : Text) :
    (t.map f).dropWhile isBlankByte = (t.dropWhile isBlankByte).map f := by
  rw [List.dropWhile_map, show isBlankByte ∘ f = isBlankByte from funext hf]

/-- A change of the bytes that keeps the blanks may be made before or after trimming. -/
theorem trim_map (hf : ∀ b, isBlankByte (f b) = isBlankByte b) (t : Text) : trim (t.map f) = (trim t).map f := by
  rw [trim, dropWhile_map hf, ← List.map_reverse, dropWhile_map hf, ← List.map_reverse, ← trim]

theorem isBlank_map (hf : ∀ b, isBlankByte (f b) = isBlankByte b) : isBlank (t.map f) ↔ isBlank t := by
  rw [← trim_eq_nil_iff, trim_map hf, List.map_eq_nil_iff, trim_eq_nil_iff]

end

end RuleFlow.Text
