import RuleFlow.Proofs.Json.Number
import RuleFlow.Proofs.Text.Lines
import RuleFlow.Report.Basic

/-!
# Rows of tables

A pipe right behind a backslash is part of a cell, any other one (`barePipes`) stands between two cells. A text that is
written as a cell has no such pipe and no line feed, and this is kept when texts are put together (`IsCell`). So a row
of such texts is one line, and cutting the line at its bare pipes gives them back.
-/

namespace RuleFlow.Table

variable {s t c : Text} {cells : List Text} {rows : List (List Text)} {columns : List Text} {previous : Option UInt8}
    {n : Nat}

/-! ## Bare pipes -/

/-- The number of pipes that are not right behind a backslash; `previous` is the byte in front of the text. -/
def barePipesAfter (previous : Option UInt8) : Text → Nat
  | [] => 0
  | b :: t => (if b = 124 ∧ previous ≠ some 92 then 1 else 0) + barePipesAfter (some b) t

def barePipes (t : Text) : Nat := barePipesAfter none t

/-- The pieces of a text that these pipes stand between. -/
def piecesAfter (previous : Option UInt8) : Text → List Text
  | [] => [[]]
  | b :: t =>
    if b = 124 ∧ previous ≠ some 92 then [] :: piecesAfter (some b) t
    else (piecesAfter (some b) t).modifyHead (b :: ·)

def pieces (t : Text) : List Text := piecesAfter none t

theorem length_piecesAfter (previous : Option UInt8) (t : Text) :
    (piecesAfter previous t).length = barePipesAfter previous t + 1 := by
  induction t generalizing previous with
  | nil => rfl
  | cons b t ih =>
      rw [piecesAfter, barePipesAfter]
      split
      · rw [List.length_cons, ih]
        omega
      · rw [List.length_modifyHead, ih, Nat.zero_add]

theorem piecesAfter_append_pipe (h : barePipesAfter previous s = 0) (t : Text) :
    piecesAfter previous (s ++ [32] ++ 124 :: t) = (s ++ [32]) :: piecesAfter (some 124) t := by
  induction s generalizing previous with
  | nil => simp [piecesAfter]
  | cons b s ih =>
      rw [barePipesAfter, Nat.add_eq_zero_iff] at h
      obtain ⟨hb, hs⟩ := h
      have hbare : ¬ (b = 124 ∧ previous ≠ some 92) := fun hbare => by simp [hbare] at hb
      rw [List.cons_append, List.cons_append, piecesAfter, if_neg hbare, ih hs]
      rfl

/-! ## Cells -/

/-- No line feed, and no bare pipe whatever stands in front. -/
structure IsCell (c : Text) : Prop where
  oneLine : 10 ∉ c
  closed : ∀ previous, barePipesAfter previous c = 0

/-- Neither a pipe nor a line feed. -/
def Plain (t : Text) : Prop := ∀ b ∈ t, b ≠ 124 ∧ b ≠ 10

instance : DecidablePred Plain := fun t => List.decidableBAll _ t

theorem barePipesAfter_append_of_eq_zero (hs : barePipesAfter previous s = 0)
    (ht : ∀ previous, barePipesAfter previous t = 0) :
    barePipesAfter previous (s ++ t) = 0 := by
  induction s generalizing previous with
  | nil => exact ht previous
  | cons b s ih =>
      rw [barePipesAfter, Nat.add_eq_zero_iff] at hs
      rw [List.cons_append, barePipesAfter, hs.1, ih hs.2]

theorem isCell_nil : IsCell [] where
  oneLine := List.not_mem_nil
  closed _ := rfl

theorem IsCell.append (hs : IsCell s) (ht : IsCell t) : IsCell (s ++ t) where
  oneLine h := (List.mem_append.mp h).elim hs.oneLine ht.oneLine
  closed previous := barePipesAfter_append_of_eq_zero (hs.closed previous) ht.closed

theorem join_of_append {p : Text → Prop} (hnil : p []) (happend : ∀ s t, p s → p t → p (s ++ t)) (hs : p s)
    (h : ∀ c ∈ cells, p c) : p (Text.join s cells) := by
  induction cells with
  | nil => exact hnil
  | cons c cells ih =>
      obtain ⟨hc, hcells⟩ := List.forall_mem_cons.mp h
      cases cells with
      | nil => simpa [Text.join] using hc
      | cons d cells =>
          simpa [Text.join, List.intercalate_cons_cons] using happend _ _ hc (happend _ _ hs (ih hcells))

theorem isCell_join (hs : IsCell s) (h : ∀ c ∈ cells, IsCell c) : IsCell (Text.join s cells) :=
  join_of_append isCell_nil (fun _ _ => .append) hs h

theorem Plain.isCell (h : Plain t) : IsCell t where
  oneLine hmem := (h 10 hmem).2 rfl
  closed previous := by
    induction t generalizing previous with
    | nil => rfl
    | cons b t ih =>
        obtain ⟨hb, ht⟩ := List.forall_mem_cons.mp h
        rw [barePipesAfter, if_neg fun hbare => hb.1 hbare.1, ih ht]

theorem Plain.count_feed (h : Plain t) : t.count 10 = 0 := List.count_eq_zero.mpr fun hmem => (h 10 hmem).2 rfl

theorem isCell_cellByte (b : UInt8) : IsCell (cellByte b) := by
  unfold cellByte
  split
  · exact ⟨by decide, fun previous => by simp [barePipesAfter, show Text.ofString "\\|" = [92, 124] by decide]⟩
  · split
    · exact Plain.isCell (by decide)
    · split
      · exact isCell_nil
      · rename_i hpipe hfeed _
        refine Plain.isCell fun b' hb' => ?_
        rw [List.mem_singleton.mp hb']
        exact ⟨fun h => hpipe (by simp [h]), fun h => hfeed (by simp [h])⟩

theorem isCell_cell (t : Text) : IsCell (cell t) := by
  induction t with
  | nil => exact isCell_nil
  | cons b t ih => exact (isCell_cellByte b).append ih

/-! ## Numbers -/

open Json (isDigit Token Word)

theorem plain_append : Plain (s ++ t) ↔ Plain s ∧ Plain t := List.forall_mem_append

theorem Plain.append (hs : Plain s) (ht : Plain t) : Plain (s ++ t) := plain_append.mpr ⟨hs, ht⟩

theorem plain_of_digits (h : ∀ b ∈ t, isDigit b) : Plain t := by
  intro b hb
  refine ⟨?_, ?_⟩
  · rintro rfl
    exact absurd (h 124 hb) (by decide)
  · rintro rfl
    exact absurd (h 10 hb) (by decide)

theorem plain_of_fraction (h : Json.Fraction t) : Plain t := by
  rcases h with rfl | ⟨ds, rfl, hds⟩
  · exact List.forall_mem_nil _
  · exact Plain.append (s := [46]) (by decide) (plain_of_digits hds.digit)

theorem plain_of_exponent (h : Json.Exponent t) : Plain t := by
  rcases h with rfl | ⟨sign, ds, rfl, hsign, hds⟩
  · exact List.forall_mem_nil _
  · have hfront : Plain [101, sign] := by rcases hsign with rfl | rfl <;> decide
    exact hfront.append (plain_of_digits hds.digit)

theorem plain_of_token (h : Token t) : Plain t := by
  obtain ⟨negative, hwhole, hfraction, hexponent⟩ := h
  have hunsigned :=
    ((plain_of_digits hwhole.digit).append (plain_of_fraction hfraction)).append (plain_of_exponent hexponent)
  cases negative with
  | false => exact hunsigned
  | true => exact Plain.append (s := [45]) (by decide) hunsigned

theorem plain_of_word (h : Word t) : Plain t := by
  rcases h with rfl | rfl | rfl <;> decide

theorem plain_ofNat (n : Nat) : Plain (Text.ofNat n) := plain_of_token (Json.token_ofNat n)

theorem plain_ofInt (n : Int) : Plain (Text.ofInt n) := plain_of_token (Json.token_ofInt n)

theorem plain_fixed (places : Nat) (x : Float) : Plain (Decimal.fixed places x) := by
  rcases Json.fixed_cases places x with ⟨-, htoken⟩ | ⟨-, hword⟩
  · exact plain_of_token htoken
  · exact plain_of_word hword

/-! ## Rows -/

/-- A row without the line feed at its end. -/
def line (cells : List Text) : Text := "| " ++ Text.join " | " cells ++ " |"

theorem row_eq (cells : List Text) : row cells = line cells ++ [10] := by
  simp only [row, line, List.append_assoc]
  rfl

/-- A text with the blanks around it that a row puts there. -/
def spaced (c : Text) : Text := 32 :: (c ++ [32])

theorem line_singleton (c : Text) : line [c] = 124 :: (spaced c ++ [124]) := by
  have hopen : Text.ofString "| " = [124, 32] := by decide
  have hclose : Text.ofString " |" = [32, 124] := by decide
  simp [line, Text.join, spaced, hopen, hclose]

theorem line_cons_cons (c d : Text) (cells : List Text) :
    line (c :: d :: cells) = 124 :: (spaced c ++ line (d :: cells)) := by
  have hopen : Text.ofString "| " = [124, 32] := by decide
  have hbetween : Text.ofString " | " = [32, 124, 32] := by decide
  simp [line, Text.join, spaced, hopen, hbetween, List.intercalate_cons_cons]

theorem line_eq (h : cells ≠ []) : line cells = 124 :: cells.flatMap fun c => spaced c ++ [124] := by
  induction cells with
  | nil => exact absurd rfl h
  | cons c cells ih =>
      cases cells with
      | nil => rw [line_singleton, List.flatMap_singleton]
      | cons d cells =>
          rw [line_cons_cons, ih (List.cons_ne_nil d cells)]
          simp only [List.flatMap_cons, List.append_assoc, List.singleton_append]

/-- A row of a table with `n` columns, none of whose cells leaves its place. -/
structure IsRow (n : Nat) (cells : List Text) : Prop where
  length_eq : cells.length = n
  isCell : ∀ c ∈ cells, IsCell c

theorem isRow_pair (hs : Plain s) (ht : IsCell t) : IsRow 2 [s, t] where
  length_eq := rfl
  isCell := List.forall_mem_cons.mpr ⟨hs.isCell, List.forall_mem_singleton.mpr ht⟩

theorem IsRow.oneLine (h : IsRow n cells) : ∀ c ∈ cells, 10 ∉ c := fun c hc => (h.isCell c hc).oneLine

theorem IsRow.pieces_line (h : IsRow (n + 1) cells) : pieces (line cells) = [] :: cells.map spaced ++ [[]] := by
  -- behind the pipe that opens the row, every cell ends at the next bare pipe
  have hrest : ∀ cells : List Text, (∀ c ∈ cells, IsCell c) →
      piecesAfter (some 124) (cells.flatMap fun c => spaced c ++ [124]) = cells.map spaced ++ [[]] := by
    intro cells hcells
    induction cells with
    | nil => rfl
    | cons c cells ih =>
        obtain ⟨hc, hcells⟩ := List.forall_mem_cons.mp hcells
        have hspaced : barePipesAfter (some 124) (32 :: c) = 0 := by simp [barePipesAfter, hc.closed]
        have hpipe := piecesAfter_append_pipe hspaced (cells.flatMap fun c => spaced c ++ [124])
        rw [ih hcells] at hpipe
        simpa [spaced] using hpipe
  rw [line_eq (List.ne_nil_of_length_eq_add_one h.length_eq), pieces, piecesAfter, if_pos (by decide),
    hrest cells h.isCell]
  rfl

theorem IsRow.barePipes_line (h : IsRow (n + 1) cells) : barePipes (line cells) = n + 2 := by
  have hlength := length_piecesAfter none (line cells)
  rw [← pieces, h.pieces_line] at hlength
  simpa [barePipes, h.length_eq] using hlength.symm

/-! ## Tables -/

theorem feed_notMem_line (h : ∀ c ∈ cells, 10 ∉ c) : 10 ∉ line cells := by
  have happend : ∀ s t : Text, 10 ∉ s → 10 ∉ t → 10 ∉ s ++ t := fun _ _ hs ht hst => (List.mem_append.mp hst).elim hs ht
  have hjoin : 10 ∉ Text.join " | " cells := join_of_append List.not_mem_nil happend (by decide) h
  exact happend _ _ (happend _ _ (by decide) hjoin) (by decide)

/-- The lines of a table. The last one is blank. -/
def tableLines (columns : List Text) (rows : List (List Text)) : List Text :=
  line columns :: line (columns.map fun _ => "---") :: (rows.map line ++ [[]])

theorem render_eq (columns : List Text) (rows : List (List Text)) :
    render columns rows = Text.ofLines (tableLines columns rows) := by
  have hfeed : Text.ofString "\n" = [10] := by decide
  have hrow : row = fun cells => line cells ++ [10] := funext row_eq
  simp [render, header, Text.ofLines, tableLines, hrow, hfeed, List.flatMap_map]

/-- A table of cells without line feeds has one line for each row. -/
theorem lines_render (hcolumns : ∀ c ∈ columns, 10 ∉ c) (hrows : ∀ cells ∈ rows, ∀ c ∈ cells, 10 ∉ c) :
    Text.lines (render columns rows) = tableLines columns rows := by
  rw [render_eq]
  refine Text.lines_ofLines fun l hl => ?_
  rw [tableLines, List.mem_cons, List.mem_cons, List.mem_append, List.mem_map, List.mem_singleton] at hl
  rcases hl with rfl | rfl | ⟨cells, hcells, rfl⟩ | rfl
  · exact feed_notMem_line hcolumns
  · refine feed_notMem_line fun c hc => ?_
    obtain ⟨_, -, rfl⟩ := List.mem_map.mp hc
    decide
  · exact feed_notMem_line (hrows cells hcells)
  · exact List.not_mem_nil

theorem count_feed_render (columns : List Text) (hcolumns : ∀ c ∈ columns, 10 ∉ c)
    (hrows : ∀ cells ∈ rows, IsRow n cells) :
    (render columns rows).count 10 = rows.length + 3 := by
  rw [← Text.length_lines, lines_render hcolumns fun cells h => (hrows cells h).oneLine]
  simp [tableLines]

theorem isWhole_render (columns : List Text) (rows : List (List Text)) : Text.IsWhole (render columns rows) :=
  Text.isWhole_append (by decide) _

theorem isRow_emptyRow (h : columns.length = n + 1) : IsRow (n + 1) (emptyRow columns) where
  length_eq := by rw [emptyRow, List.length_cons, List.length_map, List.length_tail, h, Nat.add_sub_cancel]
  isCell c hc := by
    rw [emptyRow, List.mem_cons, List.mem_map] at hc
    rcases hc with rfl | ⟨_, -, rfl⟩
    · exact Plain.isCell (by decide)
    · exact Plain.isCell (by decide)

end RuleFlow.Table
