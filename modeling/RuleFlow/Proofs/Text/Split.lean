import RuleFlow.Proofs.Lists
import RuleFlow.Proofs.Text.Trim

/-!
# Lists written in a text

The items of a list stand between separators, each by itself and with any blanks around it, and what is blank between
two separators is no item. Splitting gives exactly the items that a text is written for in this way, and a scan of the
text from separator to separator comes to its end with them (`splitList_items`).
-/

namespace RuleFlow.Text

variable {separator : UInt8} {t front rest piece : Text} {pieces items : List Text}

/-! ## Items and pieces -/

/-- A text that may be an item of a list. -/
structure IsItem (separator : UInt8) (item : Text) : Prop where
  ne_nil : item ≠ []
  trimmed : IsTrimmed item
  separator_notMem : separator ∉ item

/-- The pieces between separators hold these items, in order: each is an item with blanks around it or blank itself. -/
inductive Holds (separator : UInt8) : List Text → List Text → Prop
  | nil : Holds separator [] []
  | blank {piece : Text} {pieces items : List Text} : isBlank piece → separator ∉ piece → Holds separator pieces items →
      Holds separator (piece :: pieces) items
  | item (before item after : Text) {pieces items : List Text} : isBlank before → separator ∉ before → isBlank after →
      separator ∉ after → IsItem separator item → Holds separator pieces items →
      Holds separator ((before ++ item ++ after) :: pieces) (item :: items)

/-- The items of pieces. -/
def itemsOf (pieces : List Text) : List Text := (pieces.map trim).filter (· != [])

theorem itemsOf_append (front pieces : List Text) : itemsOf (front ++ pieces) = itemsOf front ++ itemsOf pieces := by
  simp [itemsOf]

theorem itemsOf_singleton (piece : Text) : itemsOf [piece] = if trim piece = [] then [] else [trim piece] := by
  by_cases h : trim piece = [] <;> simp [itemsOf, h]

theorem splitList_eq (separator : UInt8) (t : Text) : splitList separator t = itemsOf (t.splitOn separator) := rfl

theorem isItem_trim (hpiece : separator ∉ piece) (hne : trim piece ≠ []) : IsItem separator (trim piece) := by
  obtain ⟨before, after, -, -, hsplit⟩ := exists_padding piece
  rw [hsplit, List.mem_append, List.mem_append, not_or, not_or] at hpiece
  exact ⟨hne, isTrimmed_trim piece, hpiece.1.2⟩

theorem isItem_of_mem_itemsOf (hpieces : ∀ piece ∈ pieces, separator ∉ piece) {item : Text}
    (h : item ∈ itemsOf pieces) :
    IsItem separator item := by
  obtain ⟨hmem, hne⟩ := List.mem_filter.mp h
  obtain ⟨piece, hpiece, rfl⟩ := List.mem_map.mp hmem
  exact isItem_trim (hpieces piece hpiece) (by simpa using hne)

namespace Holds

theorem separator_notMem (h : Holds separator pieces items) : ∀ piece ∈ pieces, separator ∉ piece := by
  induction h with
  | nil => simp
  | blank _ hpiece _ ih => exact List.forall_mem_cons.mpr ⟨hpiece, ih⟩
  | item before item after _ hbefore _ hafter hitem _ ih =>
      refine List.forall_mem_cons.mpr ⟨?_, ih⟩
      simp [hbefore, hafter, hitem.separator_notMem]

theorem itemsOf_eq (h : Holds separator pieces items) : itemsOf pieces = items := by
  induction h with
  | nil => rfl
  | blank hblank _ _ ih =>
      rw [← List.singleton_append, itemsOf_append, itemsOf_singleton, if_pos (trim_eq_nil_iff.mpr hblank), ih,
        List.nil_append]
  | item before item after hbefore _ hafter _ hitem _ ih =>
      have htrim := trim_padded hbefore hafter hitem.trimmed
      rw [← List.singleton_append, itemsOf_append, itemsOf_singleton, htrim, if_neg hitem.ne_nil, ih,
        List.singleton_append]

end Holds

theorem holds_itemsOf (hpieces : ∀ piece ∈ pieces, separator ∉ piece) : Holds separator pieces (itemsOf pieces) := by
  induction pieces with
  | nil => exact .nil
  | cons piece pieces ih =>
      obtain ⟨hpiece, hothers⟩ := List.forall_mem_cons.mp hpieces
      rw [← List.singleton_append, itemsOf_append, itemsOf_singleton]
      split
      · rename_i hblank
        exact .blank (trim_eq_nil_iff.mp hblank) hpiece (ih hothers)
      · rename_i hne
        obtain ⟨before, after, hbefore, hafter, hsplit⟩ := exists_padding piece
        have hparts : separator ∉ before ++ trim piece ++ after := hsplit ▸ hpiece
        rw [List.mem_append, List.mem_append, not_or, not_or] at hparts
        have hholds :=
          Holds.item before _ after hbefore hparts.1.1 hafter hparts.2 (isItem_trim hpiece hne) (ih hothers)
        rwa [← hsplit] at hholds

/-! ## Splitting -/

theorem join_splitOn (separator : UInt8) (t : Text) : join [separator] (t.splitOn separator) = t :=
  List.intercalate_splitOn separator

theorem holds_splitOn (separator : UInt8) (t : Text) : Holds separator (t.splitOn separator) (splitList separator t) :=
  holds_itemsOf fun _ => notMem_of_mem_splitOn

theorem splitList_join (h : Holds separator pieces items) : splitList separator (join [separator] pieces) = items := by
  cases hpieces : pieces with
  | nil =>
      rw [hpieces] at h
      cases h
      rfl
  | cons piece others =>
      rw [← hpieces, splitList_eq, join, List.splitOn_intercalate separator h.separator_notMem (by simp [hpieces]),
        h.itemsOf_eq]

theorem splitList_eq_iff :
    splitList separator t = items ↔
      ∃ pieces, Holds separator pieces items ∧ t = join [separator] pieces := by
  constructor
  · rintro rfl
    exact ⟨_, holds_splitOn separator t, (join_splitOn separator t).symm⟩
  · rintro ⟨pieces, hholds, rfl⟩
    exact splitList_join hholds

theorem splitList_of_notMem (h : separator ∉ piece) : splitList separator piece = itemsOf [piece] := by
  rw [splitList_eq, List.splitOn_eq_singleton h]

theorem splitList_append_cons (h : separator ∉ piece) (rest : Text) :
    splitList separator (piece ++ separator :: rest) = itemsOf [piece] ++ splitList separator rest := by
  rw [splitList_eq, List.splitOn_append_cons_self_of_not_mem h, ← List.singleton_append, itemsOf_append, splitList_eq]

/-! ## Scanning -/

/-- A scan of a text: where the next piece starts, and the items in front of it. -/
structure Scan where
  start : Nat
  items : List Text

/-- The place of the first separator from a place on, the end of the text if there is none. -/
def stopFrom (separator : UInt8) (t : Text) (start : Nat) : Nat := start + (t.drop start).idxOf separator

/-- One round takes the piece up to the next separator and goes on behind it. -/
def Scan.next (separator : UInt8) (t : Text) (s : Scan) : Scan :=
  let stop := stopFrom separator t s.start
  let item := trim ((t.drop s.start).take (stop - s.start))
  { start := stop + 1, items := if item = [] then s.items else s.items ++ [item] }

/-- Behind some part of the text, the round takes the piece that follows. -/
theorem next_append (hpiece : separator ∉ piece) (hrest : ∀ b ∈ rest.head?, b = separator) (front : Text)
    (items : List Text) :
    Scan.next separator (front ++ (piece ++ rest)) ⟨front.length, items⟩ =
      ⟨front.length + piece.length + 1, items ++ itemsOf [piece]⟩ := by
  have hindex : (piece ++ rest).idxOf separator = piece.length := by
    rw [List.idxOf_append, if_neg hpiece]
    cases rest with
    | nil => simp
    | cons b rest => simp [hrest b rfl]
  simp only [Scan.next, stopFrom, List.drop_left, hindex, Nat.add_sub_cancel_left, List.take_left, itemsOf_singleton]
  split <;> simp

theorem iterate_next (separator : UInt8) (front rest : Text) (items : List Text) :
    (Scan.next separator (front ++ rest))^[rest.count separator + 1] ⟨front.length, items⟩ =
        ⟨(front ++ rest).length + 1, items ++ splitList separator rest⟩ ∧
      ∀ k ≤ rest.count separator, ((Scan.next separator (front ++ rest))^[k] ⟨front.length, items⟩).start ≤
        (front ++ rest).length := by
  induction hcount : rest.count separator generalizing front rest items with
  | zero =>
      have hrest : separator ∉ rest := List.count_eq_zero.mp hcount
      have hstop : ∀ b ∈ ([] : Text).head?, b = separator := by simp
      have hnext := next_append hrest hstop front items
      rw [List.append_nil] at hnext
      refine ⟨?_, fun k hk => ?_⟩
      · rw [Function.iterate_one, hnext, splitList_of_notMem hrest, List.length_append]
      · obtain rfl : k = 0 := Nat.le_zero.mp hk
        simp
  | succ n ih =>
      have hmem : separator ∈ rest := List.count_pos_iff.mp (by omega)
      obtain ⟨piece, others, rfl, hpiece⟩ := List.eq_append_cons_of_mem hmem
      have hothers : others.count separator = n := by
        simpa [List.count_eq_zero.mpr hpiece] using hcount
      -- after one round the scan stands behind the separator, with fewer of them in front
      have hstop : ∀ b ∈ (separator :: others).head?, b = separator := by simp
      have hnext := next_append hpiece hstop front items
      have hlength : front.length + piece.length + 1 = (front ++ (piece ++ [separator])).length := by simp; omega
      have htext : front ++ (piece ++ separator :: others) = front ++ (piece ++ [separator]) ++ others := by simp
      obtain ⟨hlast, hearlier⟩ := ih (front ++ (piece ++ [separator])) others (items ++ itemsOf [piece]) hothers
      rw [hlength, htext] at hnext
      rw [htext]
      refine ⟨?_, fun k hk => ?_⟩
      · rw [Function.iterate_succ_apply, hnext, hlast, splitList_append_cons hpiece, List.append_assoc items]
      · cases k with
        | zero => simp
        | succ k =>
            rw [Function.iterate_succ_apply, hnext]
            exact hearlier k (by omega)

/-- Every text is split, into items that are not empty, trimmed and without the separator. They are the ones, in their
order, that the pieces between separators hold: a text is split into the items that it is written for, however many
blanks stand around them and however many blank pieces between them. The scan from separator to separator is past the
end after one round for each separator and one more, not before, and it has found these items. -/
theorem splitList_items (separator : UInt8) (t : Text) :
    (∀ item ∈ splitList separator t, IsItem separator item) ∧
    (∀ items, splitList separator t = items ↔ ∃ pieces, Holds separator pieces items ∧ t = join [separator] pieces) ∧
    (Scan.next separator t)^[t.count separator + 1] ⟨0, []⟩ = ⟨t.length + 1, splitList separator t⟩ ∧
    ∀ k ≤ t.count separator, ((Scan.next separator t)^[k] ⟨0, []⟩).start ≤ t.length := by
  obtain ⟨hlast, hearlier⟩ := iterate_next separator [] t []
  exact ⟨fun item => isItem_of_mem_itemsOf fun _ => notMem_of_mem_splitOn, fun items => splitList_eq_iff, hlast,
    hearlier⟩

/-- With spaces between the items, only other blanks can stand around them. -/
theorem splitList_items_spaces :
    let pieces : List Text := ["\tjava", "", "c++\r", "\t\n"]
    Holds 32 pieces ["java", "c++"] ∧ splitList 32 (join [32] pieces) = ["java", "c++"] := by
  intro pieces
  have hjava : IsItem 32 "java" := ⟨by decide, ⟨by decide +kernel, by decide +kernel⟩, by decide⟩
  have hc : IsItem 32 "c++" := ⟨by decide, ⟨by decide +kernel, by decide +kernel⟩, by decide⟩
  have hholds : Holds 32 pieces ["java", "c++"] := by
    refine .item "\t" _ "" (by decide) (by decide) (by decide) (by decide) hjava ?_
    refine .blank (by decide) (by decide) ?_
    refine .item "" _ "\r" (by decide) (by decide) (by decide) (by decide) hc ?_
    exact .blank (by decide) (by decide) .nil
  exact ⟨hholds, ((splitList_items 32 _).2.1 _).mpr ⟨pieces, hholds, rfl⟩⟩

end RuleFlow.Text
